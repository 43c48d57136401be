/-
# The physical page allocator (`kernel/memory/pmm.c`)

One bit for each 4KB page of physical memory, set while the page is in use.  `pmm_init` marks
everything used, clears the pages the firmware's E820 map reports as usable, and then sets the
bits of the regions the kernel itself occupies.  `pmm_alloc` hands out the lowest free page and
`pmm_free` takes one back.

The bitmap's bytes stand apart from the memory the pages are made of: it lives in pages that
`pmm_init` sets (`test_pmmInit`), so no page that is ever handed out holds a byte of it.

The abstract view is the finite set `freePages` of clear bits below `total_pages`.  Everything
the rest of the kernel needs about a stretch of allocations is `Takes pm pm' N`: the pages `N`
were free, now they are not, and nothing else has changed.
-/
import AcornOS.Lib.Bitmap

namespace AcornOS

open Lib

/-! ## 1. The model -/

/-- `PAGE_SIZE` -/
def pageSize : Nat := 4096

/-- `PMM_BITMAP_PHYSICAL` -/
def pmmBitmapPhysical : Nat := 0x200000

/-- `HEAP_SIZE` -/
def heapSize : Nat := 16 * 1024 * 1024

/-- `e820_entry_t` -/
structure E820Entry where
  base : Nat
  length : Nat
  type : Nat
  acpi : Nat
deriving Repr, DecidableEq

/-- `E820_USABLE` -/
def e820Usable : Nat := 1

/-- The file's static variables. -/
structure Pmm where
  bitmap : Bitmap
  totalPages : Nat
  usedPages : BitVec 64

namespace Pmm

def bitmapSet (pm : Pmm) (page : Nat) : Pmm := { pm with bitmap := pm.bitmap.set page }

def bitmapClear (pm : Pmm) (page : Nat) : Pmm := { pm with bitmap := pm.bitmap.clear page }

/-- `bitmap_test`: true if the page is FREE. -/
def bitmapTest (pm : Pmm) (page : Nat) : Bool := !(pm.bitmap.get page)

/-- `bitmap_set(page); used_pages++` -/
def reserve (pm : Pmm) (page : Nat) : Pmm :=
  { pm.bitmapSet page with usedPages := pm.usedPages + 1 }

/-- `bitmap_clear(page); used_pages--` -/
def release (pm : Pmm) (page : Nat) : Pmm :=
  { pm.bitmapClear page with usedPages := pm.usedPages - 1 }

/-- One entry of the E820 walk: every full page of a usable region becomes free. -/
def markEntry (pm : Pmm) (e : E820Entry) : Pmm :=
  if e.type = e820Usable then
    loop (fun p pm => pm.release (e.base / pageSize + p)) (e.length / pageSize) pm
  else pm

/-- `bitmap_bytes` -/
def bitmapBytes (highestRam : Nat) : Nat := highestRam / pageSize / 8 + 1

/-- The bitmap and the counters before the E820 walk.  `memory` is what the bytes at the
bitmap's address held before: the loop overwrites the first `bitmap_bytes` of them. -/
def initialBitmap (memory : Bitmap) (highestRam : Nat) : Pmm where
  bitmap := loop (fun i b => Function.update b i 0xFF#8) (bitmapBytes highestRam) memory
  totalPages := highestRam / pageSize
  usedPages := BitVec.ofNat 64 (highestRam / pageSize)

/-- Step 5 of `pmm_init`: the regions the kernel and its data live in. -/
def reserveRegions (pm : Pmm) (highestRam : Nat) : Pmm :=
  let pm := pm.reserve 0
  let pm := pm.reserve (0x7C00 / pageSize)
  -- for(addr = 0x1000; addr < 0x20000; addr += PAGE_SIZE)
  let pm := loop (fun i pm => pm.reserve ((0x1000 + i * pageSize) / pageSize)) 31 pm
  let bitmapPages := bitmapBytes highestRam / pageSize + 1
  let pm := loop (fun p pm => pm.reserve (pmmBitmapPhysical / pageSize + p)) bitmapPages pm
  -- for(addr = 0x2200000; addr < 0x2200000 + HEAP_SIZE; addr += PAGE_SIZE)
  loop (fun i pm => pm.reserve ((0x2200000 + i * pageSize) / pageSize)) (heapSize / pageSize) pm

end Pmm

/-- `pmm_init` over the E820 entries `map`, `mem_map_count` of them. -/
def pmmInit (memory : Bitmap) (map : List E820Entry) (highestRam : Nat) : Pmm :=
  (map.foldl Pmm.markEntry (Pmm.initialBitmap memory highestRam)).reserveRegions highestRam

/-- `pmm_alloc`: the first page, counting up from 0, whose bit is clear. -/
def pmmAlloc (pm : Pmm) : Except Halt (Nat × Pmm) :=
  match (List.range pm.totalPages).find? pm.bitmapTest with
  | some i => .ok (i * pageSize % 2 ^ 64, pm.reserve i)
  | none => .error (.panic "pmm_alloc: out of physical memory!")

/-- `pmm_free` -/
def pmmFree (pm : Pmm) (page : Nat) : Pmm :=
  if page = 0 then pm else pm.release (page / pageSize)

/-! ## 2. One page at a time -/

namespace Pmm

@[simp] theorem test_reserve (pm : Pmm) (p q : Nat) :
    (pm.reserve p).bitmapTest q = (pm.bitmapTest q && decide (q ≠ p)) := by
  simp [reserve, bitmapSet, bitmapTest, Bitmap.get_set]

@[simp] theorem test_release (pm : Pmm) (p q : Nat) :
    (pm.release p).bitmapTest q = (pm.bitmapTest q || decide (q = p)) := by
  simp [release, bitmapClear, bitmapTest, Bitmap.get_clear]

@[simp] theorem totalPages_reserve (pm : Pmm) (p : Nat) :
    (pm.reserve p).totalPages = pm.totalPages := rfl

@[simp] theorem totalPages_release (pm : Pmm) (p : Nat) :
    (pm.release p).totalPages = pm.totalPages := rfl

@[simp] theorem usedPages_reserve (pm : Pmm) (p : Nat) :
    (pm.reserve p).usedPages = pm.usedPages + 1 := rfl

@[simp] theorem usedPages_release (pm : Pmm) (p : Nat) :
    (pm.release p).usedPages = pm.usedPages - 1 := rfl

/-- The allocator's state is its bits and its two counters. -/
theorem ext_test {pm pm' : Pmm} (ht : ∀ p, pm.bitmapTest p = pm'.bitmapTest p)
    (hn : pm.totalPages = pm'.totalPages) (hu : pm.usedPages = pm'.usedPages) : pm = pm' := by
  obtain ⟨b, n, u⟩ := pm
  obtain ⟨b', n', u'⟩ := pm'
  have hb : b = b' := Bitmap.ext_get fun p => by
    have h := ht p
    simpa [bitmapTest] using h
  simp only at hn hu
  rw [hb, hn, hu]

/-- The abstract state: the pages below `total_pages` whose bit is clear. -/
def freePages (pm : Pmm) : Finset Nat :=
  (Finset.range pm.totalPages).filter fun p => pm.bitmapTest p

theorem mem_freePages {pm : Pmm} {p : Nat} :
    p ∈ pm.freePages ↔ p < pm.totalPages ∧ pm.bitmapTest p = true := by
  simp [freePages]

end Pmm

/-! ## 3. Stretches of allocations and of frees -/

/-- `Takes pm pm' N`: between `pm` and `pm'` exactly the pages `N`, all of them free, were
taken. -/
structure Takes (pm pm' : Pmm) (N : Finset Nat) : Prop where
  free : N ⊆ pm.freePages
  test : ∀ q, pm'.bitmapTest q = (pm.bitmapTest q && decide (q ∉ N))
  total : pm'.totalPages = pm.totalPages
  used : pm'.usedPages = pm.usedPages + BitVec.ofNat 64 N.card

namespace Takes

variable {pm pm' pm'' : Pmm} {N N' : Finset Nat}

theorem refl (pm : Pmm) : Takes pm pm ∅ :=
  ⟨Finset.empty_subset _, by simp, rfl, by simp⟩

/-- What is left is what was free, less what was taken. -/
theorem freePages_eq (h : Takes pm pm' N) : pm'.freePages = pm.freePages \ N := by
  ext p
  simp only [Pmm.mem_freePages, Finset.mem_sdiff, h.test, h.total, Bool.and_eq_true,
    decide_eq_true_eq, and_assoc]

theorem card_add (h : Takes pm pm' N) :
    pm'.freePages.card + N.card = pm.freePages.card := by
  rw [h.freePages_eq, Finset.card_sdiff_add_card_eq_card h.free]

/-- What is still free afterwards has not been taken. -/
theorem disjoint_free (h : Takes pm pm' N) : Disjoint N pm'.freePages := by
  rw [h.freePages_eq]
  exact Finset.disjoint_sdiff

theorem free_mono (h : Takes pm pm' N) : pm'.freePages ⊆ pm.freePages := by
  rw [h.freePages_eq]
  exact Finset.sdiff_subset

/-- A page that was in use stays in use. -/
theorem test_false (h : Takes pm pm' N) {q : Nat} (hq : pm.bitmapTest q = false) :
    pm'.bitmapTest q = false := by
  simp [h.test, hq]

/-- A page that was taken is in use. -/
theorem test_mem (h : Takes pm pm' N) {q : Nat} (hq : q ∈ N) : pm'.bitmapTest q = false := by
  simp [h.test, hq]

/-- A page in use before is none of those taken. -/
theorem notMem_of_test (h : Takes pm pm' N) {q : Nat} (hq : pm.bitmapTest q = false) :
    q ∉ N := by
  intro hmem
  have := (Pmm.mem_freePages.mp (h.free hmem)).2
  rw [hq] at this
  cases this

/-- Two stretches in a row take disjoint sets of pages. -/
theorem disjoint (h : Takes pm pm' N) (h' : Takes pm' pm'' N') : Disjoint N N' :=
  Finset.disjoint_of_subset_right h'.free h.disjoint_free

theorem trans (h : Takes pm pm' N) (h' : Takes pm' pm'' N') : Takes pm pm'' (N ∪ N') where
  free := Finset.union_subset h.free (h'.free.trans h.free_mono)
  test q := by
    rw [h'.test, h.test, Bool.and_assoc]
    congr 1
    simp [Finset.mem_union, not_or]
  total := h'.total.trans h.total
  used := by
    rw [h'.used, h.used, Finset.card_union_of_disjoint (h.disjoint h'), BitVec.ofNat_add]
    rw [BitVec.add_assoc]

/-- Taking one free page. -/
theorem reserve {p : Nat} (hp : p ∈ pm.freePages) : Takes pm (pm.reserve p) {p} where
  free := Finset.singleton_subset_iff.mpr hp
  test q := by simp
  total := rfl
  used := by simp

end Takes

/-- Giving a list of pages back, in order: what a sequence of `pmm_free` calls does. -/
def Pmm.releaseAll (pm : Pmm) (pages : List Nat) : Pmm := pages.foldl Pmm.release pm

namespace Pmm

theorem test_releaseAll (pm : Pmm) (pages : List Nat) (q : Nat) :
    (pm.releaseAll pages).bitmapTest q = (pm.bitmapTest q || decide (q ∈ pages)) := by
  induction pages generalizing pm with
  | nil => simp [releaseAll]
  | cons p ps ih =>
    have hstep : pm.releaseAll (p :: ps) = (pm.release p).releaseAll ps := rfl
    rw [hstep, ih, test_release, Bool.or_assoc]
    congr 1
    simp [List.mem_cons]

theorem totalPages_releaseAll (pm : Pmm) (pages : List Nat) :
    (pm.releaseAll pages).totalPages = pm.totalPages := by
  induction pages generalizing pm with
  | nil => rfl
  | cons p ps ih => exact ih (pm.release p)

theorem usedPages_releaseAll (pm : Pmm) (pages : List Nat) :
    (pm.releaseAll pages).usedPages = pm.usedPages - BitVec.ofNat 64 pages.length := by
  induction pages generalizing pm with
  | nil => simp [releaseAll]
  | cons p ps ih =>
    have hstep : pm.releaseAll (p :: ps) = (pm.release p).releaseAll ps := rfl
    rw [hstep, ih, usedPages_release, List.length_cons, BitVec.ofNat_add, sub_sub, add_comm]
    rfl

end Pmm

/-- **Giving back exactly what was taken restores the allocator**, bitmap and counters alike,
in whatever order the pages come back. -/
theorem Takes.releaseAll {pm pm' : Pmm} {N : Finset Nat} (h : Takes pm pm' N)
    {pages : List Nat} (hnodup : pages.Nodup) (hmem : ∀ p, p ∈ pages ↔ p ∈ N) :
    pm'.releaseAll pages = pm := by
  have hcard : pages.length = N.card := by
    have hN : pages.toFinset = N := by
      ext p
      rw [List.mem_toFinset, hmem]
    rw [← hN, List.toFinset_card_of_nodup hnodup]
  refine Pmm.ext_test (fun q => ?_) ?_ ?_
  · rw [Pmm.test_releaseAll, h.test]
    by_cases hq : q ∈ N
    · have hfree := (Pmm.mem_freePages.mp (h.free hq)).2
      simp [hmem, hq, hfree]
    · simp [hmem, hq]
  · rw [Pmm.totalPages_releaseAll, h.total]
  · rw [Pmm.usedPages_releaseAll, h.used, hcard, add_sub_cancel_right]

/-! ## 4. `pmm_alloc` and `pmm_free` against the abstract state -/

namespace Pmm

/-- What `pmm_init` establishes and every later call keeps: page addresses fit in 64 bits and
page 0 is never free, so that a returned address is never the NULL that means failure. -/
structure Wf (pm : Pmm) : Prop where
  total_le : pm.totalPages ≤ 2 ^ 52
  zero_used : pm.bitmapTest 0 = false

theorem Wf.of_takes {pm pm' : Pmm} {N : Finset Nat} (h : pm.Wf) (ht : Takes pm pm' N) :
    pm'.Wf :=
  ⟨ht.total ▸ h.total_le, ht.test_false h.zero_used⟩

/-- A free page is not page 0. -/
theorem Wf.pos_of_mem {pm : Pmm} (h : pm.Wf) {p : Nat} (hp : p ∈ pm.freePages) : 0 < p := by
  rcases Nat.eq_zero_or_pos p with rfl | hpos
  · have := (mem_freePages.mp hp).2
    rw [h.zero_used] at this
    cases this
  · exact hpos

end Pmm

/-- The search of `pmm_alloc` stops at the least free page. -/
theorem find_least {pm : Pmm} {i : Nat}
    (h : (List.range pm.totalPages).find? pm.bitmapTest = some i) :
    i ∈ pm.freePages ∧ ∀ q ∈ pm.freePages, i ≤ q := by
  obtain ⟨htest, as, bs, hsplit, hbefore⟩ := List.find?_eq_some_iff_append.mp h
  have hi : i ∈ List.range pm.totalPages := by rw [hsplit]; simp
  refine ⟨Pmm.mem_freePages.mpr ⟨List.mem_range.mp hi, htest⟩, fun q hq => ?_⟩
  obtain ⟨hqlt, hqtest⟩ := Pmm.mem_freePages.mp hq
  by_contra hlt
  -- `List.range` is sorted, so a free page below `i` would have been met before it
  have hsorted : (List.range pm.totalPages).Pairwise (· < ·) := List.pairwise_lt_range
  rw [hsplit, List.pairwise_append] at hsorted
  have hqmem : q ∈ as ++ i :: bs := by rw [← hsplit]; exact List.mem_range.mpr hqlt
  rcases List.mem_append.mp hqmem with hqas | hqbs
  · have := hbefore q hqas
    simp [hqtest] at this
  · rcases List.mem_cons.mp hqbs with rfl | hqbs
    · exact hlt (Nat.le_refl _)
    · have := (List.pairwise_cons.mp hsorted.2.1).1 q hqbs
      omega

/-- **`pmm_alloc`.**  It fails only when nothing is free; otherwise it returns the address of
the least free page and takes exactly that page. -/
theorem pmmAlloc_spec {pm : Pmm} (hwf : pm.Wf) :
    Ensures (pmmAlloc pm)
      (fun e => e = .panic "pmm_alloc: out of physical memory!" ∧ pm.freePages = ∅)
      (fun r => ∃ p ∈ pm.freePages, (∀ q ∈ pm.freePages, p ≤ q) ∧ r.1 = p * pageSize ∧
        Takes pm r.2 {p}) := by
  unfold pmmAlloc
  cases hfind : (List.range pm.totalPages).find? pm.bitmapTest with
  | none =>
    refine ensures_error.mpr ⟨rfl, Finset.eq_empty_of_forall_notMem fun p hp => ?_⟩
    obtain ⟨hlt, htest⟩ := Pmm.mem_freePages.mp hp
    have := List.find?_eq_none.mp hfind p (List.mem_range.mpr hlt)
    exact this htest
  | some i =>
    obtain ⟨hi, hleast⟩ := find_least hfind
    have hlt : i < 2 ^ 52 := Nat.lt_of_lt_of_le (Pmm.mem_freePages.mp hi).1 hwf.total_le
    refine ensures_ok.mpr ⟨i, hi, hleast, ?_, Takes.reserve hi⟩
    exact Nat.mod_eq_of_lt (by unfold pageSize; omega)

/-- `pmm_free` of a page's address releases that page. -/
theorem pmmFree_page {pm : Pmm} {p : Nat} (hp : 0 < p) :
    pmmFree pm (p * pageSize) = pm.release p := by
  have hne : p * pageSize ≠ 0 := by unfold pageSize; omega
  rw [pmmFree, if_neg hne, Nat.mul_div_cancel _ (by decide)]

end AcornOS
