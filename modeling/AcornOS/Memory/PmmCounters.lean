/-
# What the page allocator's counters say

`pmm_used_pages` and `pmm_free_pages` report a counter that is moved once per page VISITED, not
once per bit that changes.  After `pmm_init` nothing goes wrong any more: `pmm_alloc` and `pmm_free`
of an outstanding page each change one bit and move the counter by one, so that whatever
`pmm_init` got wrong stays wrong by the same amount for ever (`PmmStep.drift`).

* **Exactly when the counters are right** (`counters_true_iff`): the usable regions of the E820
  map list as many pages, region by region, as are left free plus the reservations `pmm_init`
  makes.
* **They never are on an ordinary machine** (`counters_off_by_one`): page 7 holds the boot sector
  and lies between `0x1000` and `0x20000`, so it is reserved, and counted, twice.
-/
import AcornOS.Memory.PmmRuns

namespace AcornOS

open Lib Relation

/-! ## 1. The model -/

/-- `pmm_free_pages`: `total_pages - used_pages` -/
def pmmFreePages (pm : Pmm) : BitVec 64 := BitVec.ofNat 64 pm.totalPages - pm.usedPages

/-- `pmm_used_pages` -/
def pmmUsedPages (pm : Pmm) : BitVec 64 := pm.usedPages

/-- Some calls of `pmm_alloc` in a row. -/
def pmmAllocs : Nat → Pmm → Except Halt Pmm
  | 0, pm => .ok pm
  | n + 1, pm => do
    let (_, pm) ← pmmAlloc pm
    pmmAllocs n pm

/-- The pages below `total_pages` whose bit is set. -/
def Pmm.takenPages (pm : Pmm) : Finset Nat :=
  (Finset.range pm.totalPages).filter fun p => ¬ pm.bitmapTest p

/-- The counters tell the truth about the bitmap and about the calls of `pmm_alloc` to come. -/
structure CountersTrue (pm : Pmm) : Prop where
  used : (pmmUsedPages pm).toNat = pm.takenPages.card
  free : (pmmFreePages pm).toNat = pm.freePages.card
  future : ∀ n, (∃ pm', pmmAllocs n pm = .ok pm') ↔ n ≤ (pmmFreePages pm).toNat

/-- How often `pmm_init` clears a bit: once for every page of every usable region. -/
def clears (map : List E820Entry) : Nat :=
  ((map.filter fun e => e.type = e820Usable).map fun e => e.length / pageSize).sum

/-- How often `pmm_init` reserves a page. -/
def reservations (highestRam : Nat) : Nat :=
  2 + 31 + (Pmm.bitmapBytes highestRam / pageSize + 1) + heapSize / pageSize

instance (highestRam p : Nat) : Decidable (Pmm.Locked highestRam p) :=
  inferInstanceAs (Decidable (_ ∨ _))

/-- The usable pages below `highest_ram` that `pmm_init` does not reserve. -/
def leftFree (map : List E820Entry) (highestRam : Nat) : Finset Nat :=
  (Finset.range (highestRam / pageSize)).filter fun p =>
    Pmm.Covered map p ∧ ¬ Pmm.Locked highestRam p

/-- The pages listed are the pages left free plus the reservations, as 64-bit numbers. -/
def Balanced (map : List E820Entry) (highestRam : Nat) : Prop :=
  clears map ≡ (leftFree map highestRam).card + reservations highestRam [MOD 2 ^ 64]

/-! ## 2. The drift of the counter -/

namespace Pmm

/-- How far `used_pages` is above the number of pages in use. -/
def drift (pm : Pmm) : BitVec 64 :=
  pm.usedPages + BitVec.ofNat 64 pm.freePages.card - BitVec.ofNat 64 pm.totalPages

theorem card_taken_add_card_free (pm : Pmm) :
    pm.takenPages.card + pm.freePages.card = pm.totalPages := by
  rw [add_comm, takenPages, freePages, Finset.card_filter_add_card_filter_not, Finset.card_range]

theorem Wf.drift_eq_zero_iff {pm : Pmm} (h : pm.Wf) :
    pm.drift = 0 ↔ pm.usedPages.toNat = pm.takenPages.card := by
  have hcard := pm.card_taken_add_card_free
  have htotal := h.total_le
  rw [drift, sub_eq_zero, ← BitVec.toNat_inj, BitVec.toNat_add, BitVec.toNat_ofNat,
    BitVec.toNat_ofNat]
  have hlt := pm.usedPages.isLt
  omega

theorem Wf.free_eq {pm : Pmm} (h : pm.Wf) (hdrift : pm.drift = 0) :
    (pmmFreePages pm).toNat = pm.freePages.card := by
  have hcard := pm.card_taken_add_card_free
  have htotal := h.total_le
  have hused := h.drift_eq_zero_iff.mp hdrift
  rw [pmmFreePages, BitVec.toNat_sub, BitVec.toNat_ofNat, hused]
  omega

end Pmm

/-- **How many allocations succeed**: as many as there are free pages. -/
theorem pmmAllocs_iff : ∀ (n : Nat) (pm : Pmm), pm.Wf →
    ((∃ pm', pmmAllocs n pm = .ok pm') ↔ n ≤ pm.freePages.card)
  | 0, pm, _ => by simp [pmmAllocs]
  | n + 1, pm, hwf => by
    have hspec := pmmAlloc_spec hwf
    cases hres : pmmAlloc pm with
    | error e =>
      obtain ⟨-, hempty⟩ := hspec.of_error hres
      have hfail : ¬ ∃ pm', pmmAllocs (n + 1) pm = .ok pm' := by
        rintro ⟨pm', h⟩
        rw [pmmAllocs, hres] at h
        cases h
      simp [hfail, hempty]
    | ok r =>
      obtain ⟨a, pm'⟩ := r
      obtain ⟨p, -, -, -, htake⟩ := hspec.of_ok hres
      simp only at htake
      have hcard := htake.card_add
      rw [Finset.card_singleton] at hcard
      have hnext : pmmAllocs (n + 1) pm = pmmAllocs n pm' := by
        rw [pmmAllocs, hres]
        rfl
      rw [hnext, pmmAllocs_iff n pm' (hwf.of_takes htake)]
      omega

theorem Pmm.Wf.countersTrue_iff {pm : Pmm} (h : pm.Wf) : CountersTrue pm ↔ pm.drift = 0 := by
  constructor
  · intro hc
    exact h.drift_eq_zero_iff.mpr hc.used
  · intro hdrift
    have hfree := h.free_eq hdrift
    refine ⟨h.drift_eq_zero_iff.mp hdrift, hfree, fun n => ?_⟩
    rw [hfree]
    exact pmmAllocs_iff n pm h

/-- **No call changes the drift.** -/
theorem PmmStep.drift {s t : PmmState} (h : PmmStep s t) (hs : s.Inv) : t.pm.drift = s.pm.drift := by
  cases h with
  | @alloc a pm' hok =>
    obtain ⟨p, -, -, -, htake⟩ := (pmmAlloc_spec hs.wf).of_ok hok
    simp only at htake
    have hcard := htake.card_add
    rw [Finset.card_singleton] at hcard
    have hused := htake.used
    rw [Finset.card_singleton] at hused
    simp only [Pmm.drift]
    rw [hused, htake.total, ← hcard, BitVec.ofNat_add]
    ring
  | @free a hmem =>
    have href := hs.freeRefines hmem
    have hcard : (pmmFree s.pm a).freePages.card = s.pm.freePages.card + 1 := by
      rw [href.insert, Finset.card_insert_of_notMem href.was_used]
    have htotal : (pmmFree s.pm a).totalPages = s.pm.totalPages := by
      unfold pmmFree
      split <;> rfl
    simp only [Pmm.drift]
    have hone : BitVec.ofNat 64 1 = 1 := rfl
    rw [href.used, htotal, hcard, BitVec.ofNat_add, hone]
    ring

/-! ## 3. What `pmm_init` counts -/

theorem usedPages_loop_reserve (f : Nat → Nat) (n : Nat) (pm : Pmm) :
    (loop (fun i pm => pm.reserve (f i)) n pm).usedPages = pm.usedPages + BitVec.ofNat 64 n := by
  induction n with
  | zero => simp [loop]
  | succ n ih =>
    rw [loop, Pmm.usedPages_reserve, ih, BitVec.ofNat_add, add_assoc]
    rfl

theorem usedPages_loop_release (f : Nat → Nat) (n : Nat) (pm : Pmm) :
    (loop (fun i pm => pm.release (f i)) n pm).usedPages = pm.usedPages - BitVec.ofNat 64 n := by
  induction n with
  | zero => simp [loop]
  | succ n ih =>
    rw [loop, Pmm.usedPages_release, ih, BitVec.ofNat_add, sub_sub]
    rfl

theorem usedPages_foldl_markEntry (map : List E820Entry) (pm : Pmm) :
    (map.foldl Pmm.markEntry pm).usedPages = pm.usedPages - BitVec.ofNat 64 (clears map) := by
  induction map generalizing pm with
  | nil => simp [clears]
  | cons e es ih =>
    rw [List.foldl_cons, ih, Pmm.markEntry]
    by_cases htype : e.type = e820Usable
    · have hclears : clears (e :: es) = e.length / pageSize + clears es := by
        simp [clears, htype]
      rw [if_pos htype, usedPages_loop_release, hclears, BitVec.ofNat_add, sub_sub]
    · have hclears : clears (e :: es) = clears es := by
        simp [clears, htype]
      rw [if_neg htype, hclears]

/-- The counter after `pmm_init`: down once per page listed, up once per reservation. -/
theorem usedPages_pmmInit (memory : Bitmap) (map : List E820Entry) (highestRam : Nat) :
    (pmmInit memory map highestRam).usedPages = BitVec.ofNat 64 (highestRam / pageSize)
      - BitVec.ofNat 64 (clears map) + BitVec.ofNat 64 (reservations highestRam) := by
  simp only [pmmInit, Pmm.reserveRegions, usedPages_loop_reserve, Pmm.usedPages_reserve,
    usedPages_foldl_markEntry, reservations, BitVec.ofNat_add]
  have hstart : (Pmm.initialBitmap memory highestRam).usedPages =
      BitVec.ofNat 64 (highestRam / pageSize) := rfl
  have htwo : BitVec.ofNat 64 2 = 1 + 1 := rfl
  rw [hstart, htwo]
  ring

theorem freePages_pmmInit (memory : Bitmap) (map : List E820Entry) (highestRam : Nat) :
    (pmmInit memory map highestRam).freePages = leftFree map highestRam := by
  ext p
  simp only [mem_freePages_pmmInit, leftFree, Finset.mem_filter, Finset.mem_range]

theorem drift_pmmInit (memory : Bitmap) (map : List E820Entry) (highestRam : Nat) :
    (pmmInit memory map highestRam).drift =
      BitVec.ofNat 64 ((leftFree map highestRam).card + reservations highestRam)
        - BitVec.ofNat 64 (clears map) := by
  rw [Pmm.drift, usedPages_pmmInit, freePages_pmmInit, totalPages_pmmInit, BitVec.ofNat_add]
  ring

theorem drift_pmmInit_eq_zero (memory : Bitmap) (map : List E820Entry) (highestRam : Nat) :
    (pmmInit memory map highestRam).drift = 0 ↔ Balanced map highestRam := by
  rw [drift_pmmInit, sub_eq_zero, ← BitVec.toNat_inj, BitVec.toNat_ofNat, BitVec.toNat_ofNat,
    Balanced, Nat.ModEq]
  exact eq_comm

/-! ## 4. When the counters are right -/

/-- **Exactly when the counters tell the truth.**  They do in every state reached from `pmm_init`
iff the usable regions list, region by region, as many pages as are left free plus the
reservations. -/
theorem counters_true_iff (memory : Bitmap) (map : List E820Entry) (highestRam : Nat)
    (hram : highestRam < 2 ^ 64) :
    (∀ s, PmmReach memory map highestRam s → CountersTrue s.pm) ↔ Balanced map highestRam := by
  have hwf := pmmInit_wf memory map hram
  rw [← drift_pmmInit_eq_zero memory]
  constructor
  · intro h
    exact hwf.countersTrue_iff.mp (h _ ReflTransGen.refl)
  · intro hdrift s hs
    have hinv : s.Inv ∧ s.pm.drift = 0 := by
      refine reach_invariant (I := fun s => s.Inv ∧ s.pm.drift = 0) hs
        ⟨⟨hwf, List.nodup_nil, by simp⟩, hdrift⟩ ?_
      rintro a b ⟨ha, hda⟩ hstep
      exact ⟨hstep.inv ha, (hstep.drift ha).trans hda⟩
    exact hinv.1.wf.countersTrue_iff.mpr hinv.2

/-- 128MB, all of it usable: everything that is not locked is left free. -/
theorem card_leftFree_128MB {map : List E820Entry} (hall : ⟨0, 0x8000000, 1, 1⟩ ∈ map) :
    (leftFree map 0x8000000).card = 32768 - (32 + 2 + 4096) := by
  have hcov : ∀ p, p < 32768 → Pmm.Covered map p := by
    intro p hp
    exact ⟨_, hall, rfl, Nat.zero_le _, by simpa [pageSize] using hp⟩
  have hsplit : leftFree map 0x8000000 =
      Finset.range 32768 \ (Finset.range 32 ∪ Finset.Ico 0x200 0x202 ∪ Finset.Ico 0x2200 0x3200) := by
    ext p
    have hlock : Pmm.Locked 0x8000000 p ↔
        p ∈ Finset.range 32 ∪ Finset.Ico 0x200 0x202 ∪ Finset.Ico 0x2200 0x3200 := by
      have hbitmap : Pmm.bitmapBytes 0x8000000 / pageSize + 1 = 2 := rfl
      rw [Pmm.Locked, hbitmap]
      simp only [Finset.mem_union, Finset.mem_range, Finset.mem_Ico, or_assoc]
    have hram : 0x8000000 / pageSize = 32768 := rfl
    rw [leftFree, Finset.mem_filter, Finset.mem_sdiff, hlock, hram]
    constructor
    · rintro ⟨hp, -, hfree⟩
      exact ⟨hp, hfree⟩
    · rintro ⟨hp, hfree⟩
      exact ⟨hp, hcov p (Finset.mem_range.mp hp), hfree⟩
  rw [hsplit, Finset.card_sdiff_of_subset, Finset.card_union_of_disjoint,
    Finset.card_union_of_disjoint, Finset.card_range, Finset.card_range, Nat.card_Ico, Nat.card_Ico]
  · refine Finset.disjoint_left.mpr fun p hp hp' => ?_
    simp only [Finset.mem_range, Finset.mem_Ico] at hp hp'
    omega
  · refine Finset.disjoint_left.mpr fun p hp hp' => ?_
    simp only [Finset.mem_union, Finset.mem_range, Finset.mem_Ico] at hp hp'
    omega
  · intro p hp
    simp only [Finset.mem_union, Finset.mem_range, Finset.mem_Ico] at hp ⊢
    omega

/-- A map that lists the page `0xFF000` twice: the counter is moved down once too often, which makes
up for page 7. -/
theorem counters_true_iff_listed_twice :
    0x8000000 < 2 ^ 64 ∧ ∀ s, PmmReach (fun _ => 0) [⟨0, 0x8000000, 1, 1⟩, ⟨0xFF000, 0x1000, 1, 1⟩]
      0x8000000 s → CountersTrue s.pm := by
  have hram : 0x8000000 < 2 ^ 64 := by norm_num
  refine ⟨hram, (counters_true_iff (fun _ => 0) _ 0x8000000 hram).mpr ?_⟩
  rw [Balanced, card_leftFree_128MB (by simp)]
  decide

/-- **On an ordinary machine they are off by one.**  With 128MB of usable memory, `used_pages` is one
more than the pages in use as soon as `pmm_init` is done. -/
theorem counters_off_by_one :
    ¬ ∀ s, PmmReach (fun _ => 0) [⟨0, 0x8000000, 1, 1⟩] 0x8000000 s → CountersTrue s.pm := by
  intro h
  have hwf := pmmInit_wf (fun _ => 0) [⟨0, 0x8000000, 1, 1⟩] (show 0x8000000 < 2 ^ 64 by norm_num)
  have hdrift := hwf.countersTrue_iff.mp (h _ ReflTransGen.refl)
  rw [drift_pmmInit, card_leftFree_128MB (by simp)] at hdrift
  revert hdrift
  decide

end AcornOS
