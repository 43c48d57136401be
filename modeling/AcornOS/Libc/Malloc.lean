/-
# The user heap (`libc/src/malloc.c`)

The same data structure as the kernel heap (`Lib/BlockList.lean`), used differently.  The region
`[base, break)` grows by `SYS_HEAP_GROW`, `malloc` rounds up to a multiple of 8 and asks for at
least a 4096-byte chunk, and `free` merges with the NEXT block only.

`split_block` is wrong.  It computes what is left over as `block->size - sizeof(block_header_t)`
where `kmalloc`, its twin in `kernel/memory/mem.c`, also subtracts the `size` handed out; the new
block therefore claims `size` bytes that belong to whatever stands behind it, or that lie past
the break.  Two wrap-arounds do the rest of the damage: rounding up a request above `2^64 - 8`
gives 0, and adding a header to one above `2^64 - 25` gives a small `needed`.

* `Tiles h bs` is the invariant the file's opening comment describes.
* `SafeMalloc` says when a call meets none of the three defects.
* `heap_safe_of_unsplit`: a run made of such calls, and of any calls of `free`, keeps the heap
  tiled and the live allocations apart.
* `malloc_eight_breaks_heap`: the first `malloc(8)` of a program does not.
-/
import AcornOS.Lib.BlockList

namespace AcornOS.Libc

open Lib Relation
open scoped List

/-! ## 1. The model -/

/-- `sizeof(block_header_t)` -/
def headerSize : Nat := 24

/-- `MALLOC_CHUNK_SIZE` -/
def mallocChunkSize : Nat := 4096

/-- A pointer loop that takes more steps than there are addresses never ends. -/
def walkFuel : Nat := 2 ^ 64 + 1

/-- `heap_head`, the memory the headers live in, and the region the kernel has granted. -/
structure Heap where
  mem : Headers
  heapHead : Nat
  base : Nat
  brk : Nat

/-- What `SYS_HEAP_GROW` can grant: a positive `long` that keeps the break an address. -/
def Grants (granted : Bool) (h : Heap) (increment : Nat) : Prop :=
  granted = true ∧ increment < 2 ^ 63 ∧ h.brk + increment < 2 ^ 64

instance (granted : Bool) (h : Heap) (increment : Nat) : Decidable (Grants granted h increment) :=
  inferInstanceAs (Decidable (_ ∧ _ ∧ _))

/-- `heap_grow`: the old break, or -1.  Whether the kernel has the memory is not up to the
program: `granted` says so. -/
def heapGrow (granted : Bool) (h : Heap) (increment : Nat) : Nat × Heap :=
  if Grants granted h increment then (h.brk, { h with brk := h.brk + increment })
  else (2 ^ 64 - 1, h)

/-- `split_block` -/
def splitBlock (mem : Headers) (block size : Nat) : Headers :=
  if (mem block).size < add64 (add64 size headerSize) 1 then mem
  else
    let remaining := sub64 (mem block).size headerSize
    let newBlock := add64 (add64 block headerSize) size
    let mem := Function.update mem newBlock ⟨remaining, true, (mem block).next⟩
    Function.update mem block { mem block with size := size, next := newBlock }

/-- `(size + 7) & ~(size_t)7` -/
def roundUp8 (size : Nat) : Nat := add64 size 7 / 8 * 8

/-- `request`: the size with its header, or a whole chunk. -/
def request (size : Nat) : Nat :=
  let needed := add64 size headerSize
  if needed > mallocChunkSize then needed else mallocChunkSize

/-- `malloc`.  The returned pointer is 0 for NULL. -/
def malloc (granted : Bool) (h : Heap) (size : Nat) : Except Halt (Nat × Heap) :=
  if size = 0 then .ok (0, h)
  else
    let size := roundUp8 size
    match search h.mem size walkFuel 0 h.heapHead with
    | none => .error .diverge
    | some (.hit current) =>
      let mem := splitBlock h.mem current size
      .ok (add64 current headerSize,
        { h with mem := Function.update mem current { mem current with free := false } })
    | some (.miss prev) =>
      let (region, h) := heapGrow granted h (request size)
      if region = 2 ^ 64 - 1 then .ok (0, h)
      else
        let mem := Function.update h.mem region ⟨sub64 (request size) headerSize, false, 0⟩
        let h :=
          if prev ≠ 0 then
            { h with mem := Function.update mem prev { mem prev with next := region } }
          else { h with mem := mem, heapHead := region }
        .ok (add64 region headerSize, { h with mem := splitBlock h.mem region size })

/-- `free` -/
def free (h : Heap) (ptr : Nat) : Heap :=
  if ptr = 0 then h
  else
    let block := sub64 ptr headerSize
    let mem := Function.update h.mem block { h.mem block with free := true }
    let next := (mem block).next
    if next ≠ 0 ∧ (mem next).free then
      let size := add64 (mem block).size (headerSize + (mem next).size)
      let merged := { mem block with size := size, next := (mem next).next }
      { h with mem := Function.update mem block merged }
    else { h with mem := mem }

/-! ## 2. The invariant, and the calls that keep it -/

/-- `Tiles h bs`: the list from `heap_head` is `bs`, and it fills `[base, break)` exactly. -/
structure Tiles (h : Heap) (bs : List Block) : Prop where
  head : h.heapHead = link h.base bs
  chain : Chained headerSize h.mem h.base bs 0
  span : h.base + span headerSize bs = h.brk
  pos : 0 < h.base
  lt : h.brk < 2 ^ 64

/-- A call of `malloc` that neither splits a block nor wraps around.  `hit` is about the block
the search will settle on, the first free one that is large enough; `miss` is about the block
that would be appended.  `malloc(0)` is always safe. -/
structure SafeMalloc (granted : Bool) (h : Heap) (size : Nat) : Prop where
  hit : size ≠ 0 → ∀ bs b, Tiles h bs → bs.find? (·.Fits (roundUp8 size)) = some b →
    size + 7 < 2 ^ 64 ∧ b.size < roundUp8 size + headerSize + 1
  miss : size ≠ 0 → ∀ bs, Tiles h bs → (∀ b ∈ bs, ¬ b.Fits (roundUp8 size)) →
    ¬ Grants granted h (request (roundUp8 size)) ∨
      (size + 7 < 2 ^ 64 ∧ roundUp8 size + headerSize < 2 ^ 64 ∧
        mallocChunkSize < roundUp8 size + 2 * headerSize + 1)

theorem headerSize_pos : 0 < headerSize := by decide

theorem le_roundUp8 {size : Nat} (h : size + 7 < 2 ^ 64) : size ≤ roundUp8 size := by
  unfold roundUp8
  rw [add64_eq h]
  omega

section Operations

variable {h : Heap} {bs : List Block} {size : Nat} {granted : Bool}

theorem Tiles.length_lt (ht : Tiles h bs) : bs.length < walkFuel := by
  have hle := @length_mul_le_span headerSize bs
  have hspan := ht.span
  have hlt := ht.lt
  unfold headerSize at *
  unfold walkFuel
  omega

/-- A block that is not much larger than the request is left whole. -/
theorem splitBlock_eq {mem : Headers} {block : Nat} (hsize : size + headerSize + 1 < 2 ^ 64)
    (hsmall : (mem block).size < size + headerSize + 1) : splitBlock mem block size = mem := by
  unfold splitBlock
  rw [@add64_eq size headerSize (by omega), add64_eq hsize, if_pos hsmall]

/-- The appended block when no split follows: it is as large as the request asked for. -/
theorem request_bounds (hsize : size + headerSize < 2 ^ 64)
    (hlarge : mallocChunkSize < size + 2 * headerSize + 1) :
    size + headerSize ≤ request size ∧ request size < size + 2 * headerSize + 1 := by
  unfold request
  rw [add64_eq hsize]
  simp only
  split <;> omega

/-- `malloc` when the search finds a block that is not split. -/
theorem malloc_hit {pre post : List Block} {b : Block} (ht : Tiles h (pre ++ b :: post))
    (hfit : b.Fits (roundUp8 size)) (hsmall : b.size < roundUp8 size + headerSize + 1)
    (hne : size ≠ 0) (hsearch : search h.mem (roundUp8 size) walkFuel 0 h.heapHead
      = some (.hit (h.base + span headerSize pre))) :
    ∃ h', malloc granted h size = .ok (h.base + span headerSize pre + headerSize, h') ∧
      h'.base = h.base ∧ Tiles h' (pre ++ ⟨b.size, false⟩ :: post) := by
  have hspan := ht.span
  have hlt := ht.lt
  have hpos := ht.pos
  simp only [span_append, span_cons] at hspan
  have hat := ht.chain.at_mid
  have hle := hfit.2
  have hsplit : splitBlock h.mem (h.base + span headerSize pre) (roundUp8 size) = h.mem := by
    refine splitBlock_eq ?_ (by rw [hat]; exact hsmall)
    unfold headerSize at hspan ⊢
    omega
  have hset := ht.chain.setFree headerSize_pos false
  refine ⟨{ h with
      mem := Function.update h.mem (h.base + span headerSize pre)
        { h.mem (h.base + span headerSize pre) with free := false } }, ?_, rfl,
    ⟨?_, hset, ?_, hpos, hlt⟩⟩
  · rw [malloc, if_neg hne]
    simp only [hsearch, hsplit]
    rw [@add64_eq _ headerSize (by omega)]
  · rw [ht.head, link, link, if_neg (by simp), if_neg (by simp)]
  · simp only [span_append, span_cons]
    omega

/-- The region `malloc` asks for becomes one block in use behind all the others. -/
theorem malloc_append {granted : Bool} (ht : Tiles h bs) (hne : size ≠ 0)
    (hgrant : Grants granted h (request (roundUp8 size)))
    (hsize : roundUp8 size + headerSize < 2 ^ 64)
    (hlarge : mallocChunkSize < roundUp8 size + 2 * headerSize + 1)
    (hsearch : search h.mem (roundUp8 size) walkFuel 0 h.heapHead
      = some (.miss (lastHeader headerSize 0 h.base bs))) :
    ∃ h' n, malloc granted h size = .ok (h.brk + headerSize, h') ∧ h'.base = h.base ∧
      roundUp8 size ≤ n ∧ Tiles h' (bs ++ [⟨n, false⟩]) := by
  obtain ⟨hreq, hreq'⟩ := request_bounds hsize hlarge
  have hgrant' := hgrant
  obtain ⟨-, hlong, hend⟩ := hgrant'
  have hspan := ht.span
  have hpos := ht.pos
  have hregion : ¬ h.brk = 2 ^ 64 - 1 := by
    unfold headerSize at hreq
    omega
  -- every split leaves the new block alone, whichever header was written before it
  have hkeep : ∀ mem : Headers, (mem h.brk).size = request (roundUp8 size) - headerSize →
      splitBlock mem h.brk (roundUp8 size) = mem := by
    intro mem hmem
    refine splitBlock_eq ?_ (by rw [hmem]; omega)
    unfold headerSize at *
    omega
  have hsub : sub64 (request (roundUp8 size)) headerSize
      = request (roundUp8 size) - headerSize := sub64_eq (by omega) (by omega)
  have hptr : add64 h.brk headerSize = h.brk + headerSize := add64_eq (by omega)
  have hnew : h.base + Lib.span headerSize (bs ++ [⟨request (roundUp8 size) - headerSize, false⟩])
      = h.brk + request (roundUp8 size) := by
    simp only [span_append, span_cons, span_nil]
    omega
  rcases List.eq_nil_or_concat bs with rfl | ⟨pre, b, rfl⟩
  · have hbrk : h.base = h.brk := by simpa using hspan
    refine ⟨{ h with
        mem := Function.update h.mem h.brk ⟨request (roundUp8 size) - headerSize, false, 0⟩,
        heapHead := h.brk, brk := h.brk + request (roundUp8 size) }, _, ?_, rfl, ?_,
      ⟨?_, ⟨?_, trivial⟩, hnew, hpos, hend⟩⟩
    · rw [malloc, if_neg hne]
      simp only [hsearch, heapGrow, if_pos hgrant, lastHeader, if_neg hregion, hsub]
      simp [hptr, hkeep]
    · omega
    · simp [hbrk]
    · simp [hbrk]
  · rw [List.concat_eq_append] at *
    have hlast : h.base + span headerSize pre ≠ 0 := by omega
    have happ := ht.chain.append headerSize_pos ⟨request (roundUp8 size) - headerSize, false⟩
    rw [hspan] at happ
    refine ⟨{ h with
        mem := Function.update
          (Function.update h.mem h.brk ⟨request (roundUp8 size) - headerSize, false, 0⟩)
          (h.base + span headerSize pre)
          { h.mem (h.base + span headerSize pre) with next := h.brk },
        brk := h.brk + request (roundUp8 size) }, _, ?_, rfl, ?_, ⟨?_, happ, hnew, hpos, hend⟩⟩
    · have hapart : h.base + span headerSize pre ≠ h.brk := by
        simp only [span_append, span_cons, span_nil] at hspan
        unfold headerSize at hspan ⊢
        omega
      rw [malloc, if_neg hne]
      simp only [hsearch, heapGrow, if_pos hgrant, lastHeader_append, if_neg hregion, hsub]
      simp only [ne_eq, hlast, not_false_eq_true, if_true, hptr, Function.update_of_ne hapart]
      rw [hkeep]
      rw [Function.update_of_ne hapart.symm, Function.update_self]
    · omega
    · rw [ht.head, link, link, if_neg (by simp), if_neg (by simp)]

/-- **`malloc`, when the call is safe.**  It returns, the heap stays tiled, and it either hands out
nothing and changes nothing or puts one block of at least `size` bytes in use. -/
theorem malloc_spec (ht : Tiles h bs) (hsafe : SafeMalloc granted h size) :
    ∃ p h' bs', malloc granted h size = .ok (p, h') ∧ h'.base = h.base ∧ Tiles h' bs' ∧
      ((p = 0 ∧ inUse headerSize h.base bs' = inUse headerSize h.base bs) ∨
        ∃ x n, p = x + headerSize ∧ size ≤ n ∧
          inUse headerSize h.base bs' ~ (x, n) :: inUse headerSize h.base bs) := by
  by_cases hne : size = 0
  · exact ⟨0, h, bs, by rw [malloc, if_pos hne], rfl, ht, Or.inl ⟨rfl, rfl⟩⟩
  rcases @search_spec headerSize h.mem (roundUp8 size) bs walkFuel 0 h.base ht.pos ht.length_lt
      ht.chain with ⟨pre, b, post, rfl, hfit, hpre, hsearch⟩ | ⟨hnone, hsearch⟩
  · rw [← ht.head] at hsearch
    have hfind : (pre ++ b :: post).find? (·.Fits (roundUp8 size)) = some b := by
      rw [List.find?_append, List.find?_eq_none.mpr (by simpa using hpre)]
      simp [hfit]
    obtain ⟨hround, hsmall⟩ := hsafe.hit hne _ b ht hfind
    obtain ⟨h', hok, hbase, ht'⟩ := @malloc_hit h size granted _ _ _ ht hfit hsmall hne hsearch
    refine ⟨_, h', _, hok, hbase, ht', Or.inr ⟨_, b.size, rfl, ?_, ?_⟩⟩
    · exact (le_roundUp8 hround).trans hfit.2
    · exact @inUse_take headerSize h.base pre post [] b b.size hfit.1 (by simp) rfl
  · rw [← ht.head] at hsearch
    by_cases hgrant : Grants granted h (request (roundUp8 size))
    · obtain ⟨hround, hsize, hlarge⟩ := (hsafe.miss hne bs ht hnone).resolve_left (· hgrant)
      obtain ⟨h', n, hok, hbase, hn, ht'⟩ := malloc_append ht hne hgrant hsize hlarge hsearch
      refine ⟨_, h', _, hok, hbase, ht', Or.inr ⟨_, n, rfl, (le_roundUp8 hround).trans hn, ?_⟩⟩
      rw [inUse_append, ht.span]
      exact List.perm_append_singleton _ _
    · refine ⟨0, h, bs, ?_, rfl, ht, Or.inl ⟨rfl, rfl⟩⟩
      rw [malloc, if_neg hne]
      simp only [hsearch, heapGrow, if_neg hgrant, if_true]

/-- **`free`.**  Given a block in use it takes exactly that block out of use, whether or not it
merges it with the next one. -/
theorem free_spec {x n : Nat} (ht : Tiles h bs) (hx : (x, n) ∈ inUse headerSize h.base bs) :
    ∃ bs', Tiles (free h (x + headerSize)) bs' ∧ (free h (x + headerSize)).base = h.base ∧
      inUse headerSize h.base bs ~ (x, n) :: inUse headerSize h.base bs' := by
  obtain ⟨pre, post, rfl, rfl⟩ := mem_inUse_iff.mp hx
  have hspan := ht.span
  have hlt := ht.lt
  have hpos := ht.pos
  simp only [span_append, span_cons] at hspan
  obtain ⟨m, hm, hset⟩ : ∃ m, Function.update h.mem (h.base + span headerSize pre)
      { h.mem (h.base + span headerSize pre) with free := true } = m ∧
      Chained headerSize m h.base (pre ++ ⟨n, true⟩ :: post) 0 :=
    ⟨_, rfl, ht.chain.setFree headerSize_pos true⟩
  have htake := @inUse_take headerSize h.base pre post [] ⟨n, true⟩ n rfl (by simp) rfl
  rw [List.singleton_append] at htake
  have hblock : sub64 (h.base + span headerSize pre + headerSize) headerSize
      = h.base + span headerSize pre := by
    rw [sub64_eq (by omega) (by omega)]
    omega
  have hptr : h.base + span headerSize pre + headerSize ≠ 0 := by omega
  have hat := hset.at_mid
  have hhead : ∀ bs', bs' ≠ [] → h.heapHead = link h.base bs' := by
    intro bs' hne
    rw [ht.head, link, link, if_neg (by simp), if_neg hne]
  rw [free, if_neg hptr, hblock]
  simp only [hm]
  split
  · rename_i hmerge
    -- the next block is there and free, so the list goes on with one
    rw [hat] at hmerge
    cases post with
    | nil => exact absurd rfl hmerge.1
    | cons c post =>
      have hc := hset.at_next
      have hcat := hset.merge headerSize_pos
      simp only [reduceCtorEq, if_false, hc] at hmerge
      simp only [span_cons] at hspan
      refine ⟨pre ++ ⟨n + (headerSize + c.size), true⟩ :: post, ⟨hhead _ (by simp), ?_, ?_, hpos,
        hlt⟩, rfl, ?_⟩
      · simp only [hat, reduceCtorEq, if_false, hc]
        rw [add64_eq (by omega)]
        rw [hc] at hcat
        exact hcat
      · simp only [span_append, span_cons]
        omega
      · refine htake.trans (List.Perm.of_eq ?_)
        rw [inUse_append, inUse_append, inUse, inUse, inUse]
        simp only [hmerge.2, if_true, Nat.add_assoc]
  · refine ⟨_, ⟨hhead _ (by simp), hset, ?_, hpos, hlt⟩, rfl, htake⟩
    simp only [span_append, span_cons]
    omega

/-- On a tiled heap `malloc` always returns, safe or not. -/
theorem malloc_returns (ht : Tiles h bs) (granted : Bool) (size : Nat) :
    ∃ r, malloc granted h size = .ok r := by
  by_cases hne : size = 0
  · exact ⟨_, by rw [malloc, if_pos hne]⟩
  rcases @search_spec headerSize h.mem (roundUp8 size) bs walkFuel 0 h.base ht.pos ht.length_lt
      ht.chain with ⟨pre, b, post, -, -, -, hsearch⟩ | ⟨-, hsearch⟩
  · rw [← ht.head] at hsearch
    rw [malloc, if_neg hne]
    simp only [hsearch]
    exact ⟨_, rfl⟩
  · rw [← ht.head] at hsearch
    rw [malloc, if_neg hne]
    simp only [hsearch]
    split
    · exact ⟨_, rfl⟩
    · exact ⟨_, rfl⟩

end Operations

/-! ## 3. Whole runs -/

/-- The heap together with the allocations handed out and not yet freed, each with the size it
was asked for. -/
structure State where
  heap : Heap
  live : List (Nat × Nat)

/-- A program's calls; `granted` is the kernel's answer should the call need more memory. -/
inductive Op where
  | malloc (granted : Bool) (size : Nat)
  | free (ptr : Nat)
deriving Repr, DecidableEq

/-- One call that returns: `malloc` of any `size_t`, `free` of a live pointer. -/
inductive Step : State → Op → State → Prop
  | malloc {s : State} {granted : Bool} {size p : Nat} {h' : Heap} (hsize : size < 2 ^ 64)
      (h : malloc granted s.heap size = .ok (p, h')) :
      Step s (.malloc granted size) ⟨h', if p = 0 then s.live else (p, size) :: s.live⟩
  | free {s : State} {p n : Nat} (hlive : (p, n) ∈ s.live) :
      Step s (.free p) ⟨free s.heap p, s.live.erase (p, n)⟩

/-- A call none of the defects touches. -/
def Safe (s : State) : Op → Prop
  | .malloc granted size => SafeMalloc granted s.heap size
  | .free _ => True

/-- A program before its first `malloc`. -/
def start (memory : Headers) (base : Nat) : State := ⟨⟨memory, 0, base, base⟩, []⟩

/-- The states any run reaches. -/
def Reach (memory : Headers) (base : Nat) : State → Prop :=
  ReflTransGen (fun s t => ∃ op, Step s op t) (start memory base)

/-- The states a run of safe calls reaches. -/
def SafeReach (memory : Headers) (base : Nat) : State → Prop :=
  ReflTransGen (fun s t => ∃ op, Safe s op ∧ Step s op t) (start memory base)

/-- Heap safety: the list tiles the region, every live allocation owns the bytes it was asked
for inside the region, and data overlaps neither other data nor a header. -/
structure HeapSafe (s : State) (bs : List Block) : Prop where
  head : s.heap.heapHead = link s.heap.base bs
  chain : Chained headerSize s.heap.mem s.heap.base bs 0
  span : s.heap.base + span headerSize bs = s.heap.brk
  owns : ∀ p n, (p, n) ∈ s.live → ∃ m, n ≤ m ∧ DataRegion headerSize s.heap.base bs p m ∧
    s.heap.base ≤ p ∧ p + m ≤ s.heap.brk
  apart : ∀ p m, DataRegion headerSize s.heap.base bs p m →
    (∀ q k, DataRegion headerSize s.heap.base bs q k → q ≠ p → Apart p m q k) ∧
    ∀ y ∈ placed headerSize s.heap.base bs, Apart p m y.1 headerSize
  distinct : (s.live.map Prod.fst).Nodup

/-- `Inv s bs`: the heap is tiled by `bs`, and the live allocations are its blocks in use, each at
least as large as was asked for. -/
structure Inv (s : State) (bs : List Block) : Prop where
  tiles : Tiles s.heap bs
  live : s.live.map Prod.fst ~
    (inUse headerSize s.heap.base bs).map (fun y => y.1 + headerSize)
  size : ∀ p n, (p, n) ∈ s.live → ∃ m, n ≤ m ∧ DataRegion headerSize s.heap.base bs p m

section Runs

variable {s t : State} {bs : List Block}

theorem Inv.distinct (hs : Inv s bs) : (s.live.map Prod.fst).Nodup := by
  rw [hs.live.nodup_iff]
  have hnodup := (inUse_nodup headerSize_pos s.heap.base bs).map (add_left_injective headerSize)
  simpa [Function.comp_def] using hnodup

theorem Inv.heapSafe (hs : Inv s bs) : HeapSafe s bs where
  head := hs.tiles.head
  chain := hs.tiles.chain
  span := hs.tiles.span
  owns := by
    intro p n hp
    obtain ⟨m, hn, hm⟩ := hs.size p n hp
    obtain ⟨-, -, hlo, hhi⟩ := hm.apart
    rw [hs.tiles.span] at hhi
    exact ⟨m, hn, hm, hlo, hhi⟩
  apart := fun p m hp => ⟨hp.apart.1, hp.apart.2.1⟩
  distinct := hs.distinct

theorem start_inv (memory : Headers) {base : Nat} (hpos : 0 < base) (hlt : base < 2 ^ 64) :
    Inv (start memory base) [] where
  tiles := ⟨rfl, trivial, rfl, hpos, hlt⟩
  live := by simp [start, inUse]
  size := by simp [start]

theorem Step.inv {op : Op} (h : Step s op t) (hsafe : Safe s op) (hs : Inv s bs) :
    ∃ bs', Inv t bs' := by
  cases h with
  | @malloc granted size p h' hsize hok =>
    obtain ⟨p', h'', bs', hok', hbase, htiles, hres⟩ := malloc_spec hs.tiles hsafe
    obtain ⟨rfl, rfl⟩ := Prod.mk.inj (Except.ok.inj (hok'.symm.trans hok))
    rcases hres with ⟨hp, huse⟩ | ⟨x, n, hp, hn, huse⟩
    · rw [if_pos hp]
      refine ⟨bs', htiles, ?_, ?_⟩
      · simp only [hbase, huse]
        exact hs.live
      · simp only [hbase, DataRegion, huse]
        exact hs.size
    · rw [if_neg (by rw [hp]; have := headerSize_pos; omega)]
      refine ⟨bs', htiles, ?_, ?_⟩
      · have hmap := huse.map fun y : Nat × Nat => y.1 + headerSize
        simp only [hbase, List.map_cons, hp]
        exact (hs.live.cons _).trans hmap.symm
      · intro q k hq
        simp only [hbase]
        rcases List.mem_cons.mp hq with heq | hq
        · obtain ⟨rfl, rfl⟩ := Prod.mk.inj heq
          exact ⟨n, hn, x, huse.mem_iff.mpr List.mem_cons_self, hp⟩
        · obtain ⟨m, hm, y, hy, hqy⟩ := hs.size q k hq
          exact ⟨m, hm, y, huse.mem_iff.mpr (List.mem_cons_of_mem _ hy), hqy⟩
  | @free p n hlive =>
    obtain ⟨m, -, x, hx, rfl⟩ := hs.size p n hlive
    obtain ⟨bs', htiles, hbase, huse⟩ := free_spec hs.tiles hx
    have herase : (x + headerSize) :: (s.live.erase (x + headerSize, n)).map Prod.fst ~
        s.live.map Prod.fst := ((List.perm_cons_erase hlive).map Prod.fst).symm
    refine ⟨bs', ⟨?_, ?_, ?_⟩⟩
    · dsimp only
      exact htiles
    · have hmap := huse.map fun y : Nat × Nat => y.1 + headerSize
      simp only [hbase]
      exact (herase.trans (hs.live.trans hmap)).cons_inv
    · intro q k hq
      simp only [hbase]
      obtain ⟨l, hl, y, hy, hqy⟩ := hs.size q k (List.mem_of_mem_erase hq)
      refine ⟨l, hl, y, (List.mem_cons.mp (huse.mem_iff.mp hy)).resolve_left ?_, hqy⟩
      -- another allocation at the freed pointer would be a second live entry for it
      intro heq
      have hnodup := herase.nodup_iff.mpr hs.distinct
      refine (List.nodup_cons.mp hnodup).1 (List.mem_map.mpr ⟨(q, k), hq, ?_⟩)
      rw [hqy, (Prod.mk.inj heq).1]

theorem SafeReach.inv {memory : Headers} {base : Nat} (hpos : 0 < base) (hlt : base < 2 ^ 64)
    (h : SafeReach memory base s) : ∃ bs, Inv s bs := by
  refine reach_invariant (I := fun s => ∃ bs, Inv s bs) h ⟨[], start_inv memory hpos hlt⟩ ?_
  rintro a b ⟨bs, hs⟩ ⟨op, hsafe, hstep⟩
  exact hstep.inv hsafe hs

end Runs

/-- **User heap safety, as far as it goes.**  In every run of calls that split no block and wrap
no size, every state is safe, and the next `malloc` returns. -/
theorem heap_safe_of_unsplit (memory : Headers) (base : Nat) (s : State) (hpos : 0 < base)
    (hlt : base < 2 ^ 64) (h : SafeReach memory base s) :
    ∃ bs, HeapSafe s bs ∧ ∀ granted size, ∃ r, malloc granted s.heap size = .ok r := by
  obtain ⟨bs, hs⟩ := SafeReach.inv hpos hlt h
  exact ⟨bs, hs.heapSafe, malloc_returns hs.tiles⟩

/-- A run of safe calls: `malloc(4048)` takes its whole chunk. -/
theorem heap_safe_whole_chunk :
    ∃ s, SafeReach (fun _ => ⟨0, false, 0⟩) 0x500000 s ∧ s.live = [(0x500018, 4048)] ∧
      ∃ bs, HeapSafe s bs := by
  obtain ⟨h, hok⟩ : ∃ h, malloc true (start (fun _ => ⟨0, false, 0⟩) 0x500000).heap 4048 =
      .ok (0x500018, h) := ⟨_, rfl⟩
  have hsafe : SafeMalloc true (start (fun _ => ⟨0, false, 0⟩) 0x500000).heap 4048 := by
    refine ⟨fun _ bs b ht hfind => ?_, fun _ bs ht hnone => Or.inr (by decide)⟩
    have hempty : span headerSize bs = 0 := by
      have := ht.span
      simp only [start] at this
      omega
    obtain rfl : bs = [] := by
      by_contra hne
      have := @le_span_of_ne_nil headerSize bs hne
      simp only [headerSize] at this hempty
      omega
    cases hfind
  have hreach : SafeReach (fun _ => ⟨0, false, 0⟩) 0x500000 ⟨h, [(0x500018, 4048)]⟩ :=
    ReflTransGen.single ⟨.malloc true 4048, hsafe, Step.malloc (by decide) hok⟩
  obtain ⟨bs, hbs, -⟩ := heap_safe_of_unsplit _ _ _ (by decide) (by decide) hreach
  exact ⟨_, hreach, rfl, bs, hbs⟩

/-- The list `malloc(8)` leaves on a fresh heap: the block handed out, and a rest of 4048 bytes
where 4040 are left. -/
theorem malloc_eight_list {m : Headers} {bs : List Block} {a : Nat} (ha : 0 < a)
    (hblock : m a = ⟨8, false, a + 32⟩) (hrest : m (a + 32) = ⟨4048, true, 0⟩)
    (hne : bs ≠ []) (hch : Chained headerSize m a bs 0) : span headerSize bs = 4104 := by
  match bs, hch with
  | [], _ => exact absurd rfl hne
  | [b], hch =>
    have := hblock.symm.trans hch.1
    simp at this
  | [b, c], hch =>
    obtain ⟨hb, hc, -⟩ := hch
    obtain ⟨hsize, -⟩ := Header.mk.inj (hblock.symm.trans hb)
    rw [← hsize] at hc
    obtain ⟨hsize', -⟩ := Header.mk.inj (hrest.symm.trans hc)
    simp only [span_cons, span_nil, ← hsize, ← hsize', headerSize]
  | b :: c :: d :: bs, hch =>
    obtain ⟨hb, hc, -⟩ := hch
    obtain ⟨hsize, -⟩ := Header.mk.inj (hblock.symm.trans hb)
    rw [← hsize] at hc
    have := (Header.mk.inj (hrest.symm.trans hc)).2.2
    simp only [reduceCtorEq, if_false] at this
    omega

/-- **The first `malloc(8)` of a program breaks the heap**: its list runs eight bytes past the
break. -/
theorem malloc_eight_breaks_heap :
    ¬ ∀ (memory : Headers) (base : Nat) (s : State), 0 < base → base < 2 ^ 64 →
      Reach memory base s → ∃ bs, HeapSafe s bs := by
  intro hall
  obtain ⟨h, hok, hhead, hbase, hbrk, hblock, hrest⟩ : ∃ h : Heap,
      malloc true (start (fun _ => ⟨0, false, 0⟩) 0x500000).heap 8 = .ok (0x500018, h) ∧
      h.heapHead = 0x500000 ∧ h.base = 0x500000 ∧ h.brk = 0x501000 ∧
      h.mem 0x500000 = ⟨8, false, 0x500020⟩ ∧ h.mem 0x500020 = ⟨4048, true, 0⟩ :=
    ⟨_, rfl, rfl, rfl, rfl, rfl, rfl⟩
  have hreach : Reach (fun _ => ⟨0, false, 0⟩) 0x500000 ⟨h, [(0x500018, 8)]⟩ :=
    ReflTransGen.single ⟨_, Step.malloc (by decide) hok⟩
  obtain ⟨bs, hbs⟩ := hall _ _ _ (by decide) (by decide) hreach
  have hchain := hbs.chain
  have hspan := hbs.span
  have hlink := hbs.head
  simp only [hbase, hbrk, hhead] at hchain hspan hlink
  have hne : bs ≠ [] := by
    rintro rfl
    simp at hlink
  have := malloc_eight_list (by decide) hblock hrest hne hchain
  omega

end AcornOS.Libc
