/-
# Heap growth and the mappings there are (`sys_heap_grow`)

`sys_heap_grow` writes its entries without looking at those that are there.  The heap begins behind the
image's last segment and grows upward; in its way is the user stack's page, and behind that the kernel's
half.

* `SafeCalls`: all calls keep every mapping, and add pages of the lower half only.
* `GrowthFits`: there is room for that, from the end of the image on.
* `heap_growth_safe_iff`: the two are the SAME, for every image and all calls that return.
-/
import AcornOS.Processes.HeapGrowth

namespace AcornOS

open Lib

/-! ## 1. Mappings that survive -/

/-- Every address that was mapped is mapped as it was. -/
def MappingsKept (k u : Kernel) (root : Nat) : Prop :=
  ∀ v x, translate k.machine.mem root v = some x → translate u.machine.mem root v = some x

/-- One call after the other. -/
def growCalls : Kernel → List (BitVec 64) → Except Halt Kernel
  | k, [] => .ok k
  | k, increment :: increments => do
    let (_, u) ← sysHeapGrow k increment
    growCalls u increments

/-- Each of these calls keeps the mappings there are, and adds pages of the lower half only. -/
def SafeCalls (root : Nat) : Kernel → List (BitVec 64) → Prop
  | _, [] => True
  | k, increment :: increments => ∀ rax u, sysHeapGrow k increment = .ok (rax, u) →
    MappingsKept k u root ∧ (∀ va ∈ loopPages k increment, LowerHalf va) ∧ SafeCalls root u increments

/-- A heap may grow by `total` bytes from `start` on: up to the user stack, or, if it begins above the stack,
up to the end of the lower half. -/
def GrowthFits (start total : Nat) : Prop :=
  total = 0 ∨ start + total ≤ userStackPage ∨
    (userStackPage + pageSize ≤ start ∧ start + total ≤ 2 ^ 47)

/-- A page boundary that the heap may grow over. -/
def FreeBoundary (a : Nat) : Prop := LowerHalf a ∧ a ≠ userStackPage

/-- A process with its user stack: besides that, nothing is mapped beyond the break. -/
structure HeapBelow (k : Kernel) (root b : Nat) : Prop where
  heapAt : HeapAt k root b
  low : b ≤ 2 ^ 47
  stackPage : present (pte k.machine.mem root userStackPage) = true
  below : ∀ v, LowerHalf v → present (pte k.machine.mem root v) = true →
    v / pageSize * pageSize < b ∨ v / pageSize = userStackPage / pageSize

/-! ## 2. The calls -/

section Safety

variable {k u : Kernel} {root b : Nat} {increment rax : BitVec 64} {increments : List (BitVec 64)}
  {N : Finset Nat}

theorem lowerHalf_userStackPage : LowerHalf userStackPage := by
  unfold LowerHalf
  decide

/-- Pages in the lower half end there. -/
theorem HeapBelow.pageCeil_le (h : HeapBelow k root b)
    (hpos : ¬ (increment = 0 ∨ increment.slt 0 = true))
    (hlow : ∀ va ∈ loopPages k increment, LowerHalf va) : pageCeil (b + increment.toNat) ≤ 2 ^ 47 := by
  have hb := h.low
  have hlt := (toNat_lt_of_pos hpos).2
  obtain ⟨hle, hend, hmod⟩ := @pageCeil_spec (b + increment.toNat) (by omega)
  by_contra hbeyond
  have hlast : pageCeil (b + increment.toNat) - pageSize ∈ loopPages k increment := by
    rw [h.heapAt.mem_loopPages hb, newBreak, if_neg hpos]
    unfold pageSize at *
    omega
  have hlast := hlow _ hlast
  unfold LowerHalf at hlast
  unfold pageSize at *
  omega

/-- The user stack's page is not its old frame any more once the heap has grown over it. -/
theorem HeapGrown.not_kept (hg : HeapGrown k u root (b + increment.toNat) N) (h : HeapBelow k root b)
    (hpos : ¬ (increment = 0 ∨ increment.slt 0 = true))
    (hmem : userStackPage ∈ loopPages k increment) : ¬ MappingsKept k u root := by
  intro hkept
  have hb := h.low
  have hlt := (toNat_lt_of_pos hpos).2
  obtain ⟨hmod, hfrom, hto⟩ := (h.heapAt.mem_loopPages hb).mp hmem
  rw [newBreak, if_neg hpos] at hto
  have hlo : pageCeil k.current.heapEnd ≤ userStackPage := by
    rw [h.heapAt.heapEnd]
    exact AcornOS.pageCeil_le hfrom
  have hhi : userStackPage < pageCeil (b + increment.toNat) :=
    hto.trans_le (@pageCeil_spec (b + increment.toNat) (by omega)).1
  obtain ⟨⟨f, hf, hmap⟩, -⟩ := hg.added.inside userStackPage hlo hhi
  obtain ⟨hused, -⟩ := h.heapAt.space.used _ lowerHalf_userStackPage h.stackPage
  have hold := h.heapAt.space.translate_eq lowerHalf_userStackPage
  rw [if_pos h.stackPage] at hold
  have heq := (hkept _ _ hold).symm.trans hmap
  have hframe := (Mapping.small.inj (Option.some.inj heq)).1
  rw [← hframe] at hf
  exact hg.added.takes.notMem_of_test hused.2 hf

/-- A call whose pages are neither the user stack's nor beyond the lower half. -/
theorem HeapGrown.kept (hg : HeapGrown k u root (b + increment.toNat) N) (h : HeapBelow k root b)
    (hpos : ¬ (increment = 0 ∨ increment.slt 0 = true))
    (hfree : ∀ va ∈ loopPages k increment, FreeBoundary va) :
    MappingsKept k u root ∧ HeapBelow u root (b + increment.toNat) := by
  have hb := h.low
  have hlt := (toNat_lt_of_pos hpos).2
  have hlow := h.pageCeil_le hpos fun va hva => (hfree va hva).1
  have hadded := hg.added
  rw [h.heapAt.heapEnd] at hadded
  -- the loop does not come to the user stack's page
  have hstack : ∀ v, pageCeil b ≤ v → v < pageCeil (b + increment.toNat) →
      v / pageSize ≠ userStackPage / pageSize := by
    intro v hlo hhi hpage
    have hmem : userStackPage ∈ loopPages k increment := by
      rw [← not_lt, lt_pageCeil_iff (by omega)] at hlo
      rw [lt_pageCeil_iff (by omega)] at hhi
      rw [h.heapAt.mem_loopPages hb, newBreak, if_neg hpos]
      unfold pageSize userStackPage at *
      omega
    exact (hfree _ hmem).2 rfl
  refine ⟨fun v x hx => hadded.kept v x (fun w hlo hhi hpath => ?_) hx, hg.heapAt h.heapAt, ?_, ?_,
    fun v hv hp => ?_⟩
  · have hw : LowerHalf w := hhi.trans_le hlow
    rw [translate_path hpath, h.heapAt.space.translate_eq hw] at hx
    split at hx
    · rename_i hpres
      rcases h.below w hw hpres with hbelow | hpage
      · rw [← not_lt, lt_pageCeil_iff (by omega)] at hlo
        exact hlo hbelow
      · exact hstack w hlo hhi hpage
    · cases hx
  · exact (@pageCeil_spec (b + increment.toNat) (by omega)).1.trans hlow
  · rw [hadded.entries _ lowerHalf_userStackPage fun hin => hstack _ hin.1 hin.2 rfl]
    exact h.stackPage
  · by_cases hin : pageCeil b ≤ v ∧ v < pageCeil (b + increment.toNat)
    · exact Or.inl ((lt_pageCeil_iff (by omega)).mp hin.2)
    · rw [hadded.entries v hv hin] at hp
      exact (h.below v hv hp).imp (fun hlt => hlt.trans_le (Nat.le_add_right _ _)) id

/-- **One call.** -/
theorem HeapBelow.call (h : HeapBelow k root b) (hok : sysHeapGrow k increment = .ok (rax, u)) :
    ((MappingsKept k u root ∧ ∀ va ∈ loopPages k increment, LowerHalf va) ↔
      ∀ va ∈ loopPages k increment, FreeBoundary va) ∧
    ((∀ va ∈ loopPages k increment, FreeBoundary va) → HeapBelow u root (b + grownBy increment)) := by
  unfold grownBy
  by_cases hpos : increment = 0 ∨ increment.slt 0 = true
  · have hnone : loopPages k increment = [] := if_pos hpos
    rw [sysHeapGrow_still h.heapAt.current hpos] at hok
    obtain rfl := (Prod.mk.inj (Except.ok.inj hok)).2
    rw [if_pos hpos, hnone]
    exact ⟨⟨fun _ va hva => (nomatch hva), fun _ => ⟨fun _ _ hx => hx, fun va hva => nomatch hva⟩⟩,
      fun _ => h⟩
  · have hgrown : (∀ va ∈ loopPages k increment, LowerHalf va) →
        ∃ N, HeapGrown k u root (b + increment.toNat) N := fun hlow =>
      ((h.heapAt.grow h.low hpos (h.pageCeil_le hpos hlow)).of_ok hok).2
    rw [if_neg hpos]
    refine ⟨⟨fun ⟨hkept, hlow⟩ va hva => ⟨hlow va hva, ?_⟩, fun hfree => ?_⟩, fun hfree => ?_⟩
    · rintro rfl
      obtain ⟨N, hg⟩ := hgrown hlow
      exact hg.not_kept h hpos hva hkept
    · obtain ⟨N, hg⟩ := hgrown fun va hva => (hfree va hva).1
      exact ⟨(hg.kept h hpos hfree).1, fun va hva => (hfree va hva).1⟩
    · obtain ⟨N, hg⟩ := hgrown fun va hva => (hfree va hva).1
      exact (hg.kept h hpos hfree).2

/-- **All calls**, by induction: they are safe up to the first boundary that is not free. -/
theorem safeCalls_iff {w : Kernel} : ∀ {increments : List (BitVec 64)} {k : Kernel} {b : Nat},
    HeapBelow k root b → growCalls k increments = .ok w →
    (SafeCalls root k increments ↔
      ∀ a, a % pageSize = 0 → b ≤ a → a < b + totalGrowth increments → FreeBoundary a)
  | [], _, b, _, _ => by
    refine iff_of_true trivial fun a _ hlo hhi => ?_
    exact absurd hhi (Nat.not_lt_of_le hlo)
  | increment :: increments, k, b, h, hcalls => by
    obtain ⟨⟨rax, u⟩, hok, hrest⟩ := bind_eq_ok.mp hcalls
    obtain ⟨hcall, hnext⟩ := h.call hok
    have hsafe : SafeCalls root k (increment :: increments) ↔
        (MappingsKept k u root ∧ ∀ va ∈ loopPages k increment, LowerHalf va) ∧
          SafeCalls root u increments := by
      rw [SafeCalls, and_assoc]
      constructor
      · exact fun hall => hall rax u hok
      · intro hall rax' u' hok'
        obtain ⟨rfl, rfl⟩ := Prod.mk.inj (Except.ok.inj (hok.symm.trans hok'))
        exact hall
    have htotal : totalGrowth (increment :: increments) = grownBy increment + totalGrowth increments :=
      List.sum_cons
    have hpages : (∀ va ∈ loopPages k increment, FreeBoundary va) ↔
        ∀ a, a % pageSize = 0 → b ≤ a → a < b + grownBy increment → FreeBoundary a := by
      simp only [h.heapAt.mem_loopPages h.low, newBreak_eq, and_imp]
    rw [hsafe, hcall, htotal]
    constructor
    · rintro ⟨hfree, hsafe⟩ a ha hlo hhi
      by_cases hfirst : a < b + grownBy increment
      · exact hpages.mp hfree a ha hlo hfirst
      · exact (safeCalls_iff (hnext hfree) hrest).mp hsafe a ha (Nat.le_of_not_lt hfirst)
          (by rw [Nat.add_assoc]; exact hhi)
    · intro hall
      have hfree := hpages.mpr fun a ha hlo hhi => hall a ha hlo (by omega)
      refine ⟨hfree, (safeCalls_iff (hnext hfree) hrest).mpr fun a ha hlo hhi => ?_⟩
      exact hall a ha (by omega) (by omega)

/-- From a page boundary on, all boundaries are free exactly if the growth fits. -/
theorem growthFits_iff {start total : Nat} (hstart : start % pageSize = 0) (hlow : start ≤ 2 ^ 47) :
    (∀ a, a % pageSize = 0 → start ≤ a → a < start + total → FreeBoundary a) ↔
      GrowthFits start total := by
  unfold GrowthFits
  constructor
  · intro hall
    by_contra hnot
    simp only [not_or, not_and, not_le] at hnot
    obtain ⟨hpos, hstack, hend⟩ := hnot
    by_cases hle : start ≤ userStackPage
    · exact (hall userStackPage (by decide) hle hstack).2 rfl
    · have hbeyond : userStackPage + pageSize ≤ start := by
        unfold userStackPage pageSize at *
        omega
      exact absurd (hall (2 ^ 47) (by decide) hlow (hend hbeyond)).1 (Nat.lt_irrefl _)
  · intro hfits a ha hlo hhi
    unfold FreeBoundary LowerHalf
    unfold userStackPage pageSize at *
    omega

theorem Launched.heapBelow {q : Process} {m : Machine} (h : Launched m q root) (hm : k.machine = m)
    (hq : k.current = q) (hcur : k.currentProcess ≠ 0) : HeapBelow k root q.heapStart := by
  have haligned := h.aligned
  subst hm hq
  refine ⟨⟨hcur, h.space, h.pageDir, h.heapEnd⟩, h.low, h.stackPage, fun v hv hp => ?_⟩
  refine (h.below v hv hp).imp (fun hlt => ?_) id
  unfold pageSize at *
  omega

end Safety

/-- **Heap growth replaces no mapping exactly when it fits.**  For a process made by `elf_load` of an image
with its segments in the lower half, and any calls that all return. -/
theorem heap_growth_safe_iff (s : Machine) (p : Process) (root stack file : Nat)
    (argv : Option (List (List (BitVec 8)))) (entry : Nat) (q : Process) (t : Machine) (k w : Kernel)
    (increments : List (BitVec 64)) (hpre : Launch s p root stack)
    (hok : elfHeaderOk s.mem file = true) (hheaders : HeadersUntouched s root stack file)
    (hlow : SegmentsLow s.mem file) (hload : elfLoad s file p argv = .ok (entry, q, t))
    (hm : k.machine = t) (hq : k.current = q) (hcur : k.currentProcess ≠ 0)
    (hcalls : growCalls k increments = .ok w) :
    SafeCalls root k increments ↔
      GrowthFits (imageEnd s.mem file (elfPhnum s.mem file)) (totalGrowth increments) := by
  obtain ⟨hlaunched, hend, -⟩ := (elfLoad_space argv hpre hok hheaders hlow).of_ok hload
  rw [safeCalls_iff (hlaunched.heapBelow hm hq hcur) hcalls, ← hend]
  exact growthFits_iff hlaunched.aligned hlaunched.low

theorem heap_growth_safe_shared_page : ∃ entry q t w,
    elfLoad (imageMachine sharedPage) (frameAddr 3) (pcbWithPages 2 1) none = .ok (entry, q, t) ∧
      growCalls (runningKernel q t) [5000] = .ok w ∧ SafeCalls 1 (runningKernel q t) [5000] := by
  obtain ⟨entry, q, t, rax, u, hload, -, -, -, hu⟩ := grow_sharedPage
  have himage := smallImage_sharedPage
  have hcalls : growCalls (runningKernel q t) [5000] = .ok u := by
    rw [growCalls, hu]
    rfl
  refine ⟨entry, q, t, u, hload, hcalls, (heap_growth_safe_iff _ _ 1 2 _ none _ _ _ _ _ _
    (launch_imageMachine sharedPage) himage.accepted (headersUntouched_imageMachine himage.table)
    himage.low hload rfl rfl (Nat.succ_ne_zero _) hcalls).mpr ?_⟩
  rw [imageEnd_sharedPage]
  exact Or.inr (Or.inl (by decide))

/-- One byte in the last page below the user stack. -/
def belowStack : List (BitVec 8) := elfBytes 0x7FFFFFFFD000 [⟨1, 6, 120, 0x7FFFFFFFD000, 1, 1⟩] [0xAA]

theorem smallImage_belowStack : SmallImage belowStack := by
  have hnum : elfPhnum (imageMachine belowStack).mem (frameAddr 3) = 1 := by decide +kernel
  have hseg : segment (imageMachine belowStack).mem (frameAddr 3) 0 =
      ⟨1, 6, 120, 0x7FFFFFFFD000, 1, 1⟩ := by decide +kernel
  refine ⟨by decide +kernel, fun i hi => ?_, fun i hi _ => ?_, by decide +kernel⟩ <;> rw [hnum] at hi
  · obtain rfl : i = 0 := by omega
    decide +kernel
  · obtain rfl : i = 0 := by omega
    rw [hseg]
    exact ⟨by decide, by decide⟩

/-- Its heap begins at the user stack's page: growing it by a byte puts a blank page in the place of the
stack, where the arguments are. -/
theorem heap_takes_stack_page : ∃ entry q t w,
    Launch (imageMachine belowStack) (pcbWithPages 2 1) 1 2 ∧
      elfHeaderOk (imageMachine belowStack).mem (frameAddr 3) = true ∧
      HeadersUntouched (imageMachine belowStack) 1 2 (frameAddr 3) ∧
      SegmentsLow (imageMachine belowStack).mem (frameAddr 3) ∧
      elfLoad (imageMachine belowStack) (frameAddr 3) (pcbWithPages 2 1) none = .ok (entry, q, t) ∧
      growCalls (runningKernel q t) [1] = .ok w ∧
      ¬ MappingsKept (runningKernel q t) w 1 ∧ ¬ SafeCalls 1 (runningKernel q t) [1] := by
  have himage := smallImage_belowStack
  obtain ⟨entry, q, t, hload, hlaunched, hend, hfree⟩ := himage.load
  have hstart : imageEnd (imageMachine belowStack).mem (frameAddr 3)
      (elfPhnum (imageMachine belowStack).mem (frameAddr 3)) = userStackPage := by decide +kernel
  rw [hstart] at hend
  have hbelow : HeapBelow (runningKernel q t) 1 q.heapStart :=
    hlaunched.heapBelow rfl rfl (Nat.succ_ne_zero _)
  have hpages : loopPages (runningKernel q t) 1 = [userStackPage] := by
    unfold loopPages
    rw [hbelow.heapAt.heapEnd, hend]
    decide
  obtain ⟨rax, u, hu⟩ := @Launched.exists_grow t q 1 hlaunched (by decide) (by rw [hend]; decide)
    hfree (by rw [hpages]; decide)
  have hcalls : growCalls (runningKernel q t) [1] = .ok u := by
    rw [growCalls, hu]
    rfl
  have hnot : ¬ MappingsKept (runningKernel q t) u 1 := by
    intro hkept
    have hall := (hbelow.call hu).1.mp ⟨hkept, fun va hva => by
      rw [hpages, List.mem_singleton] at hva
      exact hva ▸ lowerHalf_userStackPage⟩
    exact (hall userStackPage (by rw [hpages]; exact List.mem_singleton_self _)).2 rfl
  exact ⟨entry, q, t, u, launch_imageMachine belowStack, himage.accepted,
    headersUntouched_imageMachine himage.table, himage.low, hload, hcalls, hnot,
    fun hsafe => hnot (hsafe rax u hu).1⟩

end AcornOS
