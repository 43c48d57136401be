/-
# What the page allocator guarantees over whole runs

`Pmm.lean` says what one call does.  This file adds what `pmm_init` leaves behind
(`test_pmmInit`) and runs the allocator from there.

* **Refinement** (`pmm_refines_free_set`): whatever sequence of `pmm_alloc` and `pmm_free` has
  been made, with only outstanding pages given back, `pmm_alloc` returns the least element of
  the abstract free set and `pmm_free` puts its page back.
* **Reserved memory** (`reserved_never_returned_iff`): the regions the memory map documents as
  locked are never handed out EXACTLY WHEN the E820 map exposes no page of `0x100000`-`0x1FFFFF`.
  `pmm_init` locks `0x1000`-`0x1FFFF` under the comment "pages covering our kernel", but stage 2
  has copied the kernel to `0x100000` by then, and nothing locks that megabyte.
* **Memory nobody reported** (`only_usable_free_iff`): a page is free without being usable memory
  EXACTLY WHEN an unaligned region begins in it, and no other region has it.
-/
import AcornOS.Memory.Pmm

namespace AcornOS

open Lib Relation

/-! ## 1. What `pmm_init` leaves behind -/

namespace Pmm

/-- The fill loop of `pmm_init` writes the bytes below its bound and no others. -/
theorem loop_fill (b : Bitmap) (n j : Nat) :
    loop (fun i b => Function.update b i 0xFF#8) n b j = if j < n then 0xFF#8 else b j := by
  induction n with
  | zero => simp [loop]
  | succ n ih =>
    rw [loop]
    by_cases hj : j = n
    · subst hj
      rw [Function.update_self, if_pos (Nat.lt_succ_self j)]
    · rw [Function.update_of_ne hj, ih]
      have hiff : j < n ↔ j < n + 1 := by omega
      simp only [hiff]

theorem test_initialBitmap (memory : Bitmap) {highestRam p : Nat}
    (hp : p < 8 * bitmapBytes highestRam) :
    (initialBitmap memory highestRam).bitmapTest p = false := by
  have hget : (initialBitmap memory highestRam).bitmap.get p = true := by
    apply Bitmap.get_of_ones
    simp only [initialBitmap]
    rw [loop_fill, if_pos (by omega)]
  simp [bitmapTest, hget]

theorem test_loop_release (pm : Pmm) (f : Nat → Nat) (n q : Nat) :
    (loop (fun i pm => pm.release (f i)) n pm).bitmapTest q
      = (pm.bitmapTest q || decide (∃ i < n, q = f i)) := by
  induction n with
  | zero => simp [loop]
  | succ n ih =>
    rw [loop, test_release, ih, Bool.or_assoc]
    congr 1
    rw [← Bool.decide_or]
    refine decide_eq_decide.mpr ⟨?_, ?_⟩
    · rintro (⟨i, hi, rfl⟩ | rfl)
      · exact ⟨i, Nat.lt_succ_of_lt hi, rfl⟩
      · exact ⟨n, Nat.lt_succ_self n, rfl⟩
    · rintro ⟨i, hi, rfl⟩
      rcases Nat.lt_succ_iff_lt_or_eq.mp hi with hlt | rfl
      · exact Or.inl ⟨i, hlt, rfl⟩
      · exact Or.inr rfl

theorem test_loop_reserve (pm : Pmm) (f : Nat → Nat) (n q : Nat) :
    (loop (fun i pm => pm.reserve (f i)) n pm).bitmapTest q
      = (pm.bitmapTest q && decide (∀ i < n, q ≠ f i)) := by
  induction n with
  | zero => simp [loop]
  | succ n ih =>
    rw [loop, test_reserve, ih, Bool.and_assoc]
    congr 1
    rw [← Bool.decide_and]
    refine decide_eq_decide.mpr ⟨?_, ?_⟩
    · rintro ⟨hall, hn⟩ i hi
      rcases Nat.lt_succ_iff_lt_or_eq.mp hi with hlt | rfl
      · exact hall i hlt
      · exact hn
    · exact fun hall => ⟨fun i hi => hall i (Nat.lt_succ_of_lt hi), hall n (Nat.lt_succ_self n)⟩

/-- A page the firmware reports as usable: one of the full pages, counted from the region's
base rounded down, of some type 1 entry. -/
def Covered (map : List E820Entry) (p : Nat) : Prop :=
  ∃ e ∈ map, e.type = e820Usable ∧ e.base / pageSize ≤ p ∧
    p < e.base / pageSize + e.length / pageSize

instance (map : List E820Entry) (p : Nat) : Decidable (Covered map p) :=
  inferInstanceAs (Decidable (∃ e ∈ map, _))

theorem test_markEntry (pm : Pmm) (e : E820Entry) (q : Nat) :
    (pm.markEntry e).bitmapTest q = (pm.bitmapTest q || decide (Covered [e] q)) := by
  unfold markEntry
  split
  · rename_i htype
    rw [test_loop_release]
    congr 1
    refine decide_eq_decide.mpr ⟨?_, ?_⟩
    · rintro ⟨i, hi, rfl⟩
      exact ⟨e, by simp, htype, by omega, by omega⟩
    · rintro ⟨e', he', -, hlo, hhi⟩
      rw [List.mem_singleton.mp he'] at hlo hhi
      exact ⟨q - e.base / pageSize, by omega, by omega⟩
  · rename_i htype
    have hnot : ¬ Covered [e] q := by
      rintro ⟨e', he', hty, -⟩
      rw [List.mem_singleton.mp he'] at hty
      exact htype hty
    simp [hnot]

theorem test_foldl_markEntry (pm : Pmm) (map : List E820Entry) (q : Nat) :
    (map.foldl markEntry pm).bitmapTest q = (pm.bitmapTest q || decide (Covered map q)) := by
  induction map generalizing pm with
  | nil => simp [Covered]
  | cons e es ih =>
    rw [List.foldl_cons, ih, test_markEntry, Bool.or_assoc]
    congr 1
    rw [← Bool.decide_or]
    refine decide_eq_decide.mpr ?_
    simp [Covered, List.mem_cons, or_and_right, exists_or]

/-- The pages step 5 of `pmm_init` sets: the first 32, the bitmap's own and the heap's. -/
def Locked (highestRam p : Nat) : Prop :=
  p < 0x20 ∨ (0x200 ≤ p ∧ p < 0x200 + (bitmapBytes highestRam / pageSize + 1)) ∨
    (0x2200 ≤ p ∧ p < 0x3200)

theorem test_reserveRegions (pm : Pmm) (highestRam q : Nat) :
    (pm.reserveRegions highestRam).bitmapTest q = true ↔
      pm.bitmapTest q = true ∧ ¬ Locked highestRam q := by
  simp only [reserveRegions, test_loop_reserve, test_reserve, Bool.and_eq_true,
    decide_eq_true_eq, and_assoc]
  refine and_congr_right fun _ => ?_
  simp only [Locked, pageSize, pmmBitmapPhysical, heapSize]
  constructor
  · rintro ⟨h0, -, hboot, hbitmap, hheap⟩ (h | ⟨h1, h2⟩ | ⟨h1, h2⟩)
    · exact hboot (q - 1) (by omega) (by omega)
    · exact hbitmap (q - 0x200) (by omega) (by omega)
    · exact hheap (q - 0x2200) (by omega) (by omega)
  · intro hnot
    refine ⟨by omega, by omega, fun i hi => by omega, fun i hi => by omega, fun i hi => by omega⟩

end Pmm

theorem totalPages_loop_reserve (f : Nat → Nat) (n : Nat) (pm : Pmm) :
    (loop (fun i pm => pm.reserve (f i)) n pm).totalPages = pm.totalPages :=
  loop_invariant (I := fun _ (t : Pmm) => t.totalPages = pm.totalPages) rfl
    fun _ _ _ ht => ht

theorem totalPages_loop_release (f : Nat → Nat) (n : Nat) (pm : Pmm) :
    (loop (fun i pm => pm.release (f i)) n pm).totalPages = pm.totalPages :=
  loop_invariant (I := fun _ (t : Pmm) => t.totalPages = pm.totalPages) rfl
    fun _ _ _ ht => ht

theorem totalPages_pmmInit (memory : Bitmap) (map : List E820Entry) (highestRam : Nat) :
    (pmmInit memory map highestRam).totalPages = highestRam / pageSize := by
  have hmark : ∀ (map : List E820Entry) (pm : Pmm),
      (map.foldl Pmm.markEntry pm).totalPages = pm.totalPages := by
    intro map
    induction map with
    | nil => exact fun _ => rfl
    | cons e es ih =>
      intro pm
      rw [List.foldl_cons, ih, Pmm.markEntry]
      split
      · exact totalPages_loop_release _ _ _
      · rfl
  simp only [pmmInit, Pmm.reserveRegions]
  rw [totalPages_loop_reserve, totalPages_loop_reserve, totalPages_loop_reserve,
    Pmm.totalPages_reserve, Pmm.totalPages_reserve, hmark]
  rfl

/-- **What `pmm_init` leaves free**: the pages the firmware calls usable, less the locked
ones. -/
theorem test_pmmInit (memory : Bitmap) (map : List E820Entry) {highestRam p : Nat}
    (hp : p < 8 * Pmm.bitmapBytes highestRam) :
    (pmmInit memory map highestRam).bitmapTest p = true ↔
      Pmm.Covered map p ∧ ¬ Pmm.Locked highestRam p := by
  rw [pmmInit, Pmm.test_reserveRegions, Pmm.test_foldl_markEntry,
    Pmm.test_initialBitmap memory hp]
  simp

theorem mem_freePages_pmmInit {memory : Bitmap} {map : List E820Entry} {highestRam p : Nat} :
    p ∈ (pmmInit memory map highestRam).freePages ↔
      p < highestRam / pageSize ∧ Pmm.Covered map p ∧ ¬ Pmm.Locked highestRam p := by
  rw [Pmm.mem_freePages, totalPages_pmmInit]
  refine and_congr_right fun hp => test_pmmInit memory map ?_
  unfold Pmm.bitmapBytes
  omega

theorem pmmInit_wf (memory : Bitmap) (map : List E820Entry) {highestRam : Nat}
    (hram : highestRam < 2 ^ 64) : (pmmInit memory map highestRam).Wf where
  total_le := by
    rw [totalPages_pmmInit]
    unfold pageSize
    omega
  zero_used := by
    have hnot : ¬ ((pmmInit memory map highestRam).bitmapTest 0 = true) := by
      rw [test_pmmInit memory map (Nat.mul_pos (by decide) (Nat.succ_pos _))]
      exact fun h => h.2 (Or.inl (by decide))
    simpa using hnot

/-! ## 2. The allocator refines a set of free pages -/

/-- The allocator together with the addresses it has handed out and not taken back. -/
structure PmmState where
  pm : Pmm
  outstanding : List Nat

/-- One call, with `pmm_free` given only an outstanding address. -/
inductive PmmStep : PmmState → PmmState → Prop
  | alloc {s : PmmState} {a : Nat} {pm' : Pmm} (h : pmmAlloc s.pm = .ok (a, pm')) :
      PmmStep s ⟨pm', a :: s.outstanding⟩
  | free {s : PmmState} {a : Nat} (h : a ∈ s.outstanding) :
      PmmStep s ⟨pmmFree s.pm a, s.outstanding.erase a⟩

/-- The invariant of such runs: outstanding pages are in use, and no page is outstanding
twice. -/
structure PmmState.Inv (s : PmmState) : Prop where
  wf : s.pm.Wf
  nodup : s.outstanding.Nodup
  used : ∀ a ∈ s.outstanding, ∃ p, 0 < p ∧ p < s.pm.totalPages ∧ a = p * pageSize ∧
    s.pm.bitmapTest p = false

theorem page_inj {p q : Nat} (h : p * pageSize = q * pageSize) : p = q := by
  unfold pageSize at h
  omega

theorem PmmStep.inv {s t : PmmState} (h : PmmStep s t) (hs : s.Inv) : t.Inv := by
  cases h with
  | @alloc a pm' hok =>
    obtain ⟨p, hp, -, ha, htake⟩ := (pmmAlloc_spec hs.wf).of_ok hok
    simp only at ha htake
    obtain ⟨hplt, hptest⟩ := Pmm.mem_freePages.mp hp
    have hfresh : a ∉ s.outstanding := by
      intro hmem
      obtain ⟨q, -, -, hq, hqtest⟩ := hs.used a hmem
      rw [← page_inj (ha.symm.trans hq), hptest] at hqtest
      cases hqtest
    refine ⟨hs.wf.of_takes htake, List.nodup_cons.mpr ⟨hfresh, hs.nodup⟩, ?_⟩
    intro b hb
    rcases List.mem_cons.mp hb with rfl | hb
    · exact ⟨p, hs.wf.pos_of_mem hp, htake.total ▸ hplt, ha, htake.test_mem (by simp)⟩
    · obtain ⟨q, hq0, hqlt, hq, hqtest⟩ := hs.used b hb
      exact ⟨q, hq0, htake.total ▸ hqlt, hq, htake.test_false hqtest⟩
  | @free a hmem =>
    obtain ⟨p, hp0, hplt, rfl, hptest⟩ := hs.used a hmem
    rw [pmmFree_page hp0]
    refine ⟨⟨hs.wf.total_le, ?_⟩, hs.nodup.erase _, ?_⟩
    · rw [Pmm.test_release, hs.wf.zero_used]
      simp only [Bool.false_or, decide_eq_false_iff_not]
      omega
    · intro b hb
      obtain ⟨hne, hb'⟩ := (hs.nodup.mem_erase_iff).mp hb
      obtain ⟨q, hq0, hqlt, rfl, hqtest⟩ := hs.used b hb'
      refine ⟨q, hq0, hqlt, rfl, ?_⟩
      have hqp : q ≠ p := fun h => hne (by rw [h])
      simp [hqtest, hqp]

/-- The states a run reaches from `pmm_init`. -/
def PmmReach (memory : Bitmap) (map : List E820Entry) (highestRam : Nat) (s : PmmState) : Prop :=
  ReflTransGen PmmStep ⟨pmmInit memory map highestRam, []⟩ s

theorem PmmReach.inv {memory : Bitmap} {map : List E820Entry} {highestRam : Nat} {s : PmmState}
    (hram : highestRam < 2 ^ 64) (h : PmmReach memory map highestRam s) : s.Inv :=
  reach_invariant h ⟨pmmInit_wf memory map hram, List.nodup_nil, by simp⟩
    fun _ _ hs hstep => hstep.inv hs

/-- `pmm_alloc` against the set of free pages. -/
structure AllocRefines (s : PmmState) : Prop where
  least : ∀ a pm', pmmAlloc s.pm = .ok (a, pm') → ∃ hne : s.pm.freePages.Nonempty,
    a = 4096 * s.pm.freePages.min' hne ∧
    pm'.freePages = s.pm.freePages.erase (s.pm.freePages.min' hne) ∧
    (∀ q, q ≠ s.pm.freePages.min' hne → pm'.bitmapTest q = s.pm.bitmapTest q) ∧
    pm'.usedPages = s.pm.usedPages + 1 ∧ a ∉ s.outstanding
  panics_iff : pmmAlloc s.pm = .error (.panic "pmm_alloc: out of physical memory!") ↔
    s.pm.freePages = ∅
  returns : s.pm.freePages.Nonempty → ∃ a pm', pmmAlloc s.pm = .ok (a, pm')

/-- `pmm_free` of `a` against the set of free pages. -/
structure FreeRefines (s : PmmState) (a : Nat) : Prop where
  was_used : a / 4096 ∉ s.pm.freePages
  insert : (pmmFree s.pm a).freePages = insert (a / 4096) s.pm.freePages
  others : ∀ q, q ≠ a / 4096 → (pmmFree s.pm a).bitmapTest q = s.pm.bitmapTest q
  used : (pmmFree s.pm a).usedPages = s.pm.usedPages - 1

theorem PmmState.Inv.allocRefines {s : PmmState} (hs : s.Inv) : AllocRefines s := by
  have hspec := pmmAlloc_spec hs.wf
  cases hres : pmmAlloc s.pm with
  | error e =>
    obtain ⟨rfl, hempty⟩ := hspec.of_error hres
    refine ⟨fun a pm' h => ?_, ?_, fun hne => ?_⟩
    · rw [hres] at h
      cases h
    · simp [hres, hempty]
    · exact absurd hempty hne.ne_empty
  | ok r =>
    obtain ⟨a, pm'⟩ := r
    obtain ⟨p, hp, hleast, ha, htake⟩ := hspec.of_ok hres
    simp only at ha htake
    have hne : s.pm.freePages.Nonempty := ⟨p, hp⟩
    have hmin : s.pm.freePages.min' hne = p :=
      le_antisymm (Finset.min'_le _ _ hp) (Finset.le_min' _ _ _ fun q hq => hleast q hq)
    refine ⟨?_, ?_, fun _ => ⟨a, pm', hres⟩⟩
    · intro a' pm'' h
      obtain ⟨rfl, rfl⟩ : a = a' ∧ pm' = pm'' := by simpa [hres] using h
      refine ⟨hne, ?_, ?_, ?_, ?_, ?_⟩
      · rw [hmin, ha, Nat.mul_comm]
        rfl
      · rw [hmin, htake.freePages_eq, Finset.sdiff_singleton_eq_erase]
      · intro q hq
        rw [hmin] at hq
        simp [htake.test, hq]
      · simpa using htake.used
      · exact (List.nodup_cons.mp ((PmmStep.alloc hres).inv hs).nodup).1
    · simp [hres, hne.ne_empty]

theorem PmmState.Inv.freeRefines {s : PmmState} (hs : s.Inv) {a : Nat}
    (ha : a ∈ s.outstanding) : FreeRefines s a := by
  obtain ⟨p, hp0, hplt, rfl, hptest⟩ := hs.used a ha
  have hdiv : p * pageSize / 4096 = p := Nat.mul_div_cancel _ (by decide)
  refine ⟨?_, ?_, ?_, ?_⟩
  · rw [hdiv, Pmm.mem_freePages, hptest]
    simp
  · ext q
    rw [hdiv, pmmFree_page hp0]
    rw [Finset.mem_insert, Pmm.mem_freePages, Pmm.mem_freePages, Pmm.test_release,
      Pmm.totalPages_release]
    constructor
    · rintro ⟨hlt, hq⟩
      rcases Bool.or_eq_true_iff.mp hq with hq | hq
      · exact Or.inr ⟨hlt, hq⟩
      · exact Or.inl (of_decide_eq_true hq)
    · rintro (rfl | ⟨hlt, hq⟩)
      · exact ⟨hplt, by simp⟩
      · exact ⟨hlt, by simp [hq]⟩
  · intro q hq
    rw [hdiv] at hq
    rw [pmmFree_page hp0]
    simp [hq]
  · rw [pmmFree_page hp0]
    rfl

/-- **The page allocator refines a set of free pages.**  In every state reached from
`pmm_init`, `pmm_alloc` returns the address of the least free page and takes that page only,
panicking iff there is none; `pmm_free` of an outstanding address puts its page back and
nothing else; each moves `used_pages` by one; and no page is ever outstanding twice. -/
theorem pmm_refines_free_set (memory : Bitmap) (map : List E820Entry) (highestRam : Nat)
    (hram : highestRam < 2 ^ 64) (s : PmmState) (hs : PmmReach memory map highestRam s) :
    AllocRefines s ∧ (∀ a ∈ s.outstanding, FreeRefines s a) ∧ s.outstanding.Nodup :=
  have hinv := hs.inv hram
  ⟨hinv.allocRefines, fun _ ha => hinv.freeRefines ha, hinv.nodup⟩

/-- A machine with 4MB of memory, just booted. -/
theorem pmm_refines_free_set_boot :
    AllocRefines ⟨pmmInit (fun _ => 0) [⟨0, 0x400000, 1, 1⟩] 0x400000, []⟩ := by
  have hram : 0x400000 < 2 ^ 64 := by norm_num
  exact (pmm_refines_free_set (fun _ => 0) [⟨0, 0x400000, 1, 1⟩] 0x400000 hram _
    ReflTransGen.refl).1

/-! ## 3. Reserved memory

Here a run may give back any address it was ever handed, even twice: a double free makes a page
free again, but never one that was not free at the start. -/

/-- The allocator together with every address it has ever returned. -/
structure PmmHistory where
  pm : Pmm
  returned : List Nat

/-- One call, with `pmm_free` given only an address `pmm_alloc` has returned. -/
inductive HistStep : PmmHistory → PmmHistory → Prop
  | alloc {s : PmmHistory} {a : Nat} {pm' : Pmm} (h : pmmAlloc s.pm = .ok (a, pm')) :
      HistStep s ⟨pm', a :: s.returned⟩
  | free {s : PmmHistory} {a : Nat} (h : a ∈ s.returned) :
      HistStep s ⟨pmmFree s.pm a, s.returned⟩

/-- The states a run reaches from `pmm_init`. -/
def HistReach (memory : Bitmap) (map : List E820Entry) (highestRam : Nat) (s : PmmHistory) :
    Prop :=
  ReflTransGen HistStep ⟨pmmInit memory map highestRam, []⟩ s

/-- The addresses `docs/memory_map.md` lists as marked used before the first allocation and
this code base occupies: page 0, the boot pages, the kernel image at the place stage 2 copies
it to, the pages holding the bitmap, and the kernel heap. -/
def DocLocked (highestRam a : Nat) : Prop :=
  a ≤ 0xFFF ∨ (0x1000 ≤ a ∧ a ≤ 0x1FFFF) ∨ (0x100000 ≤ a ∧ a ≤ 0x1FFFFF) ∨
    (0x200000 ≤ a ∧ a / 4096 ≤ (0x200000 + Pmm.bitmapBytes highestRam - 1) / 4096) ∨
    (0x2200000 ≤ a ∧ a ≤ 0x31FFFFF)

/-- The documented list is what step 5 of `pmm_init` sets, plus the kernel image. -/
theorem docLocked_page {highestRam p : Nat} (h : DocLocked highestRam (p * pageSize)) :
    Pmm.Locked highestRam p ∨ (0x100 ≤ p ∧ p < 0x200) := by
  simp only [DocLocked, Pmm.Locked, pageSize] at h ⊢
  omega

/-- The invariant, for any set of pages none of which is free at the start: they stay used,
and none of them is ever returned. -/
structure PmmHistory.Keeps (L : Nat → Prop) (s : PmmHistory) : Prop where
  wf : s.pm.Wf
  locked : ∀ p, L p → p ∉ s.pm.freePages
  returned : ∀ a ∈ s.returned, ∃ p, 0 < p ∧ p < s.pm.totalPages ∧ a = p * pageSize ∧ ¬ L p

theorem HistStep.keeps {L : Nat → Prop} {s t : PmmHistory} (h : HistStep s t)
    (hs : s.Keeps L) : t.Keeps L := by
  cases h with
  | @alloc a pm' hok =>
    obtain ⟨p, hp, -, ha, htake⟩ := (pmmAlloc_spec hs.wf).of_ok hok
    simp only at ha htake
    refine ⟨hs.wf.of_takes htake, fun q hq hfree => hs.locked q hq (htake.free_mono hfree), ?_⟩
    intro b hb
    rcases List.mem_cons.mp hb with rfl | hb
    · exact ⟨p, hs.wf.pos_of_mem hp, htake.total ▸ (Pmm.mem_freePages.mp hp).1, ha,
        fun hL => hs.locked p hL hp⟩
    · obtain ⟨q, hq0, hqlt, hq, hqL⟩ := hs.returned b hb
      exact ⟨q, hq0, htake.total ▸ hqlt, hq, hqL⟩
  | @free a hmem =>
    obtain ⟨p, hp0, hplt, rfl, hpL⟩ := hs.returned a hmem
    rw [pmmFree_page hp0]
    refine ⟨⟨hs.wf.total_le, ?_⟩, ?_, hs.returned⟩
    · rw [Pmm.test_release, hs.wf.zero_used]
      simp only [Bool.false_or, decide_eq_false_iff_not]
      omega
    · intro q hq hfree
      have hqp : q ≠ p := fun h => hpL (h ▸ hq)
      rw [Pmm.mem_freePages, Pmm.test_release, Pmm.totalPages_release] at hfree
      simp only [hqp, decide_false, Bool.or_false] at hfree
      exact hs.locked q hq (Pmm.mem_freePages.mpr hfree)

/-- Every free page is handed out sooner or later: keep allocating. -/
theorem exists_run_returning {p : Nat} : ∀ (n : Nat) (s : PmmHistory), s.pm.Wf →
    s.pm.freePages.card = n → p ∈ s.pm.freePages →
    ∃ t, ReflTransGen HistStep s t ∧ p * pageSize ∈ t.returned
  | 0, s, _, hcard, hp => by
    rw [Finset.card_eq_zero.mp hcard] at hp
    cases hp
  | n + 1, s, hwf, hcard, hp => by
    obtain ⟨⟨a, pm'⟩, hok, q, hq, -, ha, htake⟩ :=
      (pmmAlloc_spec hwf).exists_ok fun _ he => by
        rw [he.2] at hp
        cases hp
    simp only at ha htake
    have hstep : HistStep s ⟨pm', a :: s.returned⟩ := HistStep.alloc hok
    by_cases hpq : p = q
    · subst hpq
      exact ⟨_, ReflTransGen.single hstep, by rw [← ha]; exact List.mem_cons_self⟩
    · have hcard' : pm'.freePages.card = n := by
        have := htake.card_add
        rw [Finset.card_singleton] at this
        omega
      have hp' : p ∈ pm'.freePages := by
        rw [htake.freePages_eq]
        simp [hp, hpq]
      obtain ⟨t, hrun, hmem⟩ :=
        exists_run_returning n ⟨pm', a :: s.returned⟩ (hwf.of_takes htake) hcard' hp'
      exact ⟨t, ReflTransGen.head hstep hrun, hmem⟩

/-- **Reserved memory is never handed out iff the E820 map exposes no page of the kernel
image.**  Every other documented region is set by `pmm_init` whatever the map says. -/
theorem reserved_never_returned_iff (memory : Bitmap) (map : List E820Entry) (highestRam : Nat)
    (hram : highestRam < 2 ^ 64) :
    (∀ s, HistReach memory map highestRam s → ∀ a ∈ s.returned, ¬ DocLocked highestRam a) ↔
      ∀ p, 0x100 ≤ p → p < 0x200 → p < highestRam / pageSize → ¬ Pmm.Covered map p := by
  constructor
  · intro hsafe p hlo hhi hlt hcov
    have hnot : ¬ Pmm.Locked highestRam p := by
      simp only [Pmm.Locked]
      omega
    have hp : p ∈ (pmmInit memory map highestRam).freePages :=
      mem_freePages_pmmInit.mpr ⟨hlt, hcov, hnot⟩
    obtain ⟨t, hrun, hmem⟩ := exists_run_returning _ ⟨pmmInit memory map highestRam, []⟩
      (pmmInit_wf memory map hram) rfl hp
    refine hsafe t hrun _ hmem ?_
    simp only [DocLocked, pageSize]
    omega
  · intro hcond s hs a ha hdoc
    have hkeeps : s.Keeps fun p => DocLocked highestRam (p * pageSize) := by
      refine reach_invariant hs ⟨pmmInit_wf memory map hram, fun p hp hfree => ?_, by simp⟩
        fun _ _ hs hstep => hstep.keeps hs
      obtain ⟨hlt, hcov, hnot⟩ := mem_freePages_pmmInit.mp hfree
      rcases docLocked_page hp with hlock | ⟨hlo, hhi⟩
      · exact hnot hlock
      · exact hcond p hlo hhi hlt hcov
    obtain ⟨p, -, -, rfl, hpL⟩ := hkeeps.returned a ha
    exact hpL hdoc

/-- On a machine whose low memory is all below 1MB the condition holds. -/
theorem reserved_never_returned_low_memory :
    0x9F000 < 2 ^ 64 ∧ ∀ s, HistReach (fun _ => 0) [⟨0, 0x9F000, 1, 1⟩] 0x9F000 s →
      ∀ a ∈ s.returned, ¬ DocLocked 0x9F000 a := by
  have hram : 0x9F000 < 2 ^ 64 := by norm_num
  refine ⟨hram, ?_⟩
  refine (reserved_never_returned_iff (fun _ => 0) [⟨0, 0x9F000, 1, 1⟩] 0x9F000 hram).mpr ?_
  intro p hlo _ hlt
  unfold pageSize at hlt
  omega

/-- **The kernel image is handed out.**  With 128MB of memory, usable from 1MB up, the very
first `pmm_alloc` returns `0x100000`, where stage 2 has put the kernel. -/
theorem kernel_image_returned :
    ∃ s, HistReach (fun _ => 0) [⟨0x100000, 0x7F00000, 1, 1⟩] 0x8000000 s ∧
      0x100000 ∈ s.returned ∧ DocLocked 0x8000000 0x100000 := by
  have hram : 0x8000000 < 2 ^ 64 := by norm_num
  have hfree : 0x100 ∈ (pmmInit (fun _ => 0) [⟨0x100000, 0x7F00000, 1, 1⟩] 0x8000000).freePages := by
    refine mem_freePages_pmmInit.mpr ⟨by decide, by decide, ?_⟩
    simp only [Pmm.Locked]
    omega
  obtain ⟨⟨a, pm'⟩, hok, p, hp, hleast, ha, -⟩ :=
    (pmmAlloc_spec (pmmInit_wf (fun _ => 0) [⟨0x100000, 0x7F00000, 1, 1⟩] hram)).exists_ok
      fun _ he => by
        rw [he.2] at hfree
        cases hfree
  -- nothing below 1MB is usable, so the least free page is the kernel's first
  have hcov := (mem_freePages_pmmInit.mp hp).2.1
  have hp100 : p = 0x100 := by
    have hle := hleast _ hfree
    obtain ⟨e, he, -, hlo, -⟩ := hcov
    rw [List.mem_singleton.mp he] at hlo
    simp only [pageSize] at hlo
    omega
  simp only [hp100] at ha
  refine ⟨_, ReflTransGen.single (HistStep.alloc hok), ?_, ?_⟩
  · rw [ha]
    exact List.mem_cons_self
  · simp only [DocLocked]
    omega

/-! ## 4. What the firmware did not report as usable

`pmm_init` rounds the base of a region DOWN and counts the full pages of its length from there, so
that the page in which an unaligned region begins is freed as well. -/

/-- The whole page is in a region that is usable. -/
def E820Entry.Holds (e : E820Entry) (p : Nat) : Prop :=
  e.type = e820Usable ∧ e.base ≤ p * pageSize ∧ (p + 1) * pageSize ≤ e.base + e.length

instance (e : E820Entry) (p : Nat) : Decidable (e.Holds p) :=
  inferInstanceAs (Decidable (_ ∧ _))

/-- A region has all the pages that it frees, except perhaps the one it begins in. -/
theorem E820Entry.holds_of_lt {e : E820Entry} {p : Nat} (htype : e.type = e820Usable)
    (hlo : e.base / pageSize ≤ p) (hhi : p < e.base / pageSize + e.length / pageSize)
    (hfirst : p ≠ e.base / pageSize ∨ e.base % pageSize = 0) : e.Holds p := by
  refine ⟨htype, ?_, ?_⟩
  · unfold pageSize at *
    omega
  · unfold pageSize at *
    omega

/-- It does not have that one if its base is not aligned. -/
theorem E820Entry.not_holds_first {e : E820Entry} (hbase : e.base % pageSize ≠ 0) :
    ¬ e.Holds (e.base / pageSize) := by
  rintro ⟨-, hle, -⟩
  unfold pageSize at *
  omega

/-- **Only usable memory becomes free iff every unaligned region begins in a page that is another
region's.**  (Or in one that is reserved afterwards, or beyond the memory that is managed.) -/
theorem only_usable_free_iff (memory : Bitmap) (map : List E820Entry) (highestRam : Nat) :
    (∀ p < (pmmInit memory map highestRam).totalPages,
      (pmmInit memory map highestRam).bitmapTest p = true → ∃ e ∈ map, e.Holds p) ↔
    ∀ e ∈ map, e.type = e820Usable → e.base % pageSize ≠ 0 → pageSize ≤ e.length →
      e.base / pageSize < highestRam / pageSize → ¬ Pmm.Locked highestRam (e.base / pageSize) →
      ∃ e' ∈ map, e' ≠ e ∧ e'.Holds (e.base / pageSize) := by
  have hfree : ∀ p, p < (pmmInit memory map highestRam).totalPages ∧
      (pmmInit memory map highestRam).bitmapTest p = true ↔
      p < highestRam / pageSize ∧ Pmm.Covered map p ∧ ¬ Pmm.Locked highestRam p := fun p =>
    Pmm.mem_freePages.symm.trans mem_freePages_pmmInit
  constructor
  · intro hall e he htype hbase hlen hlt hlock
    have hpos : 0 < e.length / pageSize := Nat.div_pos hlen (by decide)
    obtain ⟨hp, htest⟩ := (hfree _).mpr ⟨hlt, ⟨e, he, htype, Nat.le_refl _, by omega⟩, hlock⟩
    obtain ⟨e', he', hholds⟩ := hall _ hp htest
    refine ⟨e', he', ?_, hholds⟩
    rintro rfl
    exact E820Entry.not_holds_first hbase hholds
  · intro hall p hp htest
    obtain ⟨hlt, ⟨e, he, htype, hlo, hhi⟩, hlock⟩ := (hfree p).mp ⟨hp, htest⟩
    by_cases hfirst : p ≠ e.base / pageSize ∨ e.base % pageSize = 0
    · exact ⟨e, he, e.holds_of_lt htype hlo hhi hfirst⟩
    · obtain ⟨hp, hbase⟩ := not_or.mp hfirst
      obtain rfl := not_not.mp hp
      have hlen : pageSize ≤ e.length := by
        by_contra hshort
        rw [Nat.div_eq_of_lt (Nat.not_le.mp hshort)] at hhi
        omega
      obtain ⟨e', he', -, hholds⟩ := hall e he htype hbase hlen hlt hlock
      exact ⟨e', he', hholds⟩

/-- **Half a page that nobody reported is free.**  One usable region of 4KB from `0x100800` on makes
page `0x100` free. -/
theorem unreported_half_page_free :
    0x100 < (pmmInit (fun _ => 0) [⟨0x100800, 0x1000, 1, 1⟩] 0x200000).totalPages ∧
      (pmmInit (fun _ => 0) [⟨0x100800, 0x1000, 1, 1⟩] 0x200000).bitmapTest 0x100 = true ∧
      ¬ ∃ e ∈ [(⟨0x100800, 0x1000, 1, 1⟩ : E820Entry)], e.Holds 0x100 := by
  have hfree : 0x100 ∈ (pmmInit (fun _ => 0) [⟨0x100800, 0x1000, 1, 1⟩] 0x200000).freePages := by
    refine mem_freePages_pmmInit.mpr ⟨by decide, by decide, ?_⟩
    simp only [Pmm.Locked, Pmm.bitmapBytes, pageSize]
    omega
  obtain ⟨hlt, htest⟩ := Pmm.mem_freePages.mp hfree
  exact ⟨hlt, htest, by decide⟩

end AcornOS
