/-
# The heap of a loaded program (`sys_heap_grow`)

The break moves by any number of bytes, pages are mapped from page boundary to page boundary, both rounded
up.  `sys_heap_grow` looks at neither the entries it writes nor the addresses it has come to.

* `PagesAdded`: the loop of one call.  What it maps is new and zeroed, all other addresses are where
  they were.
* `HeapRun`: calls, and stores of the program to its heap in between.
* `heap_growth_law`: up to the user stack the heap is what a program expects.
-/
import AcornOS.Core.ElfSpace
import AcornOS.Processes.Lifecycle

namespace AcornOS

open Lib

/-! ## 1. The loop of one call -/

/-- `PagesAdded s t root lo hi N`: the pages from `lo` to `hi` are new and zeroed, with frames of `N`, and
all other addresses are where they were. -/
structure PagesAdded (s t : Machine) (root lo hi : Nat) (N : Finset Nat) : Prop where
  space : UserSpace t root
  takes : Takes s.pmm t.pmm N
  few : N.card ≤ 4 * ((hi - lo) / pageSize)
  inside : ∀ v, lo ≤ v → v < hi →
    (∃ f ∈ N, UserMapped t.mem root v f) ∧ readByte t.mem root v = some 0
  entries : ∀ v, LowerHalf v → ¬ (lo ≤ v ∧ v < hi) → pte t.mem root v = pte s.mem root v
  bytes : ∀ v, LowerHalf v → ¬ (lo ≤ v ∧ v < hi) → readByte t.mem root v = readByte s.mem root v
  kept : ∀ v x, (∀ w, lo ≤ w → w < hi → path v ≠ path w) → translate s.mem root v = some x →
    translate t.mem root v = some x

section Loop

variable {s t u : Machine} {root va lo hi f n : Nat} {N N' : Finset Nat}

section Page

variable (h : PageAdded s t root va (pagePresent + pageWritable + pageUser) f N)
include h

theorem PageAdded.frame_lt : f < 2 ^ 40 := h.space.wf.lt_of_used (h.takes.used_of_mem h.mem)

/-- The new page, at any address in it. -/
theorem PageAdded.userMapped {v : Nat} (hv : LowerHalf v)
    (hpage : v / pageSize = va / pageSize) :
    UserMapped t.mem root v f ∧ readByte t.mem root v = some 0 := by
  have hpte : pte t.mem root v = _ := (pte_congr (path_of_page hpage) root).trans h.here
  obtain ⟨-, hpres, -, hframe⟩ := pageEntry_spec h.frame_lt
    (by decide : (pagePresent + pageWritable + pageUser) % 2 = 1)
  rw [← hpte] at hpres hframe
  refine ⟨?_, ?_⟩
  · rw [UserMapped, h.space.translate_eq hv, if_pos hpres, hframe, hpte, permissions_pageEntry]
    rfl
  · rw [h.space.readByte_eq hv, if_pos hpres, hframe, h.zero _ (Nat.mod_lt _ (by decide))]

/-- A byte of another page is not written to. -/
theorem PageAdded.readByte_eq (hs : UserSpace s root) {v : Nat} (hv : LowerHalf v)
    (hpath : path v ≠ path va) : readByte t.mem root v = readByte s.mem root v := by
  rw [h.space.readByte_eq hv, hs.readByte_eq hv, h.others v hpath]
  split
  · rename_i hpres
    obtain ⟨hused, hnot⟩ := hs.used v hv hpres
    refine congrArg some (h.only _ (hs.wf.lt_of_used hused) ?_ _ (Nat.mod_lt _ (by decide)))
    rintro (hmem | hmem)
    · exact hnot hmem
    · exact h.takes.notMem_of_test hused.2 hmem
  · rfl

end Page

theorem PagesAdded.refl (h : UserSpace s root) (lo : Nat) : PagesAdded s s root lo lo ∅ where
  space := h
  takes := Takes.refl _
  few := Nat.zero_le _
  inside _ hlo hhi := absurd hlo (Nat.not_le_of_lt hhi)
  entries _ _ _ := rfl
  bytes _ _ _ := rfl
  kept _ _ _ hx := hx

/-- One page more. -/
theorem PagesAdded.snoc (h : PagesAdded s t root lo hi N) (hle : lo ≤ hi) (hmod : hi % pageSize = 0)
    (hend : hi + pageSize ≤ 2 ^ 47)
    (hadd : PageAdded t u root hi (pagePresent + pageWritable + pageUser) f N') :
    PagesAdded s u root lo (hi + pageSize) (N ∪ N') := by
  have hpage : ∀ v, v / pageSize = hi / pageSize ↔ hi ≤ v ∧ v < hi + pageSize := by
    intro v
    unfold pageSize at *
    omega
  have hhi : LowerHalf hi := by
    unfold LowerHalf
    unfold pageSize at hend
    omega
  -- an address outside the new page has another path
  have hpath : ∀ v, LowerHalf v → ¬ (hi ≤ v ∧ v < hi + pageSize) → path v ≠ path hi :=
    fun v hv hnot heq => hnot ((hpage v).mp (path_inj hv hhi heq))
  refine ⟨hadd.space, h.takes.trans hadd.takes, ?_, fun v hlo hv => ?_, fun v hv hnot => ?_,
    fun v hv hnot => ?_, fun v x hv hx => ?_⟩
  · have hcard := Finset.card_union_le N N'
    have hfew := h.few
    have hfew' := hadd.few
    have hrounds : (hi + pageSize - lo) / pageSize = (hi - lo) / pageSize + 1 := by
      unfold pageSize
      omega
    omega
  · have hlow : LowerHalf v := hv.trans_le hend
    by_cases hnew : hi ≤ v
    · obtain ⟨hmap, hzero⟩ := hadd.userMapped hlow ((hpage v).mpr ⟨hnew, hv⟩)
      exact ⟨⟨f, Finset.mem_union_right _ hadd.mem, hmap⟩, hzero⟩
    · have hother := hpath v hlow fun hin => hnew hin.1
      obtain ⟨⟨g, hg, hmap⟩, hzero⟩ := h.inside v hlo (Nat.lt_of_not_le hnew)
      exact ⟨⟨g, Finset.mem_union_left _ hg, hadd.kept v _ hother hmap⟩,
        (hadd.readByte_eq h.space hlow hother).trans hzero⟩
  · have hother := hpath v hv fun hin => hnot ⟨hle.trans hin.1, hin.2⟩
    refine (hadd.others v hother).trans (h.entries v hv fun hin => hnot ⟨hin.1, ?_⟩)
    exact hin.2.trans_le (Nat.le_add_right _ _)
  · have hother := hpath v hv fun hin => hnot ⟨hle.trans hin.1, hin.2⟩
    refine (hadd.readByte_eq h.space hv hother).trans (h.bytes v hv fun hin => hnot ⟨hin.1, ?_⟩)
    exact hin.2.trans_le (Nat.le_add_right _ _)
  · refine hadd.kept v x (hv hi hle (Nat.lt_add_of_pos_right (by decide))) (h.kept v x ?_ hx)
    exact fun w hlo hw => hv w hlo (hw.trans_le (Nat.le_add_right _ _))

/-- **The loop**, in the lower half.  It fails only for want of pages. -/
theorem UserSpace.growLoop (h : UserSpace s root) (hlo : lo % pageSize = 0)
    (hend : lo + n * pageSize ≤ 2 ^ 47) :
    Ensures (forRange (fun i m => growPage (frameAddr root) (lo + i * pageSize) m) n s)
      (fun _ => s.pmm.freePages.card < 4 * n)
      (fun t => ∃ N, PagesAdded s t root lo (lo + n * pageSize) N) := by
  refine forRange_invariant (I := fun i t => ∃ N, PagesAdded s t root lo (lo + i * pageSize) N)
    ⟨∅, ?_⟩ ?_
  · rw [Nat.zero_mul, Nat.add_zero]
    exact PagesAdded.refl h lo
  rintro i t hi ⟨N, hadded⟩
  have hrounds : lo + (i + 1) * pageSize = lo + i * pageSize + pageSize := by
    rw [Nat.succ_mul, Nat.add_assoc]
  have hlast : lo + i * pageSize + pageSize ≤ 2 ^ 47 := by
    refine le_trans (le_of_eq hrounds.symm) (le_trans ?_ hend)
    exact Nat.add_le_add_left (Nat.mul_le_mul_right _ hi) lo
  have hva : LowerHalf (lo + i * pageSize) := by
    unfold LowerHalf
    unfold pageSize at *
    omega
  have hcard := hadded.takes.card_add
  have hfew := hadded.few
  rw [Nat.add_sub_cancel_left, Nat.mul_div_cancel _ (by decide)] at hfew
  refine (mapZeroed_space (pagePresent + pageWritable + pageUser) hadded.space hva rfl).mono
    (fun _ he => by omega) ?_
  rintro u ⟨f, N', hadd⟩
  rw [hrounds]
  refine ⟨N ∪ N', hadded.snoc (Nat.le_add_right _ _) ?_ hlast hadd⟩
  rw [Nat.add_mul_mod_self_right]
  exact hlo

end Loop

/-! ## 2. A call -/

/-- Pages one after the other. -/
def pagesFrom (lo n : Nat) : List Nat := (List.range n).map fun i => lo + i * pageSize

/-- The addresses that the loop of a call maps, in this order. -/
def loopPages (k : Kernel) (increment : BitVec 64) : List Nat :=
  if increment = 0 ∨ increment.slt 0 then []
  else
    let newEnd := add64 k.current.heapEnd increment.toNat
    let mappedUpTo := pageCeil k.current.heapEnd
    pagesFrom mappedUpTo ((pageCeil newEnd - mappedUpTo) / pageSize)

/-- A process in its address space, with its break. -/
structure HeapAt (k : Kernel) (root b : Nat) : Prop where
  current : k.currentProcess ≠ 0
  space : UserSpace k.machine root
  pageDir : k.current.pageDir = frameAddr root
  heapEnd : k.current.heapEnd = b

/-- `HeapGrown k u root e N`: a call has moved the break to `e`. -/
structure HeapGrown (k u : Kernel) (root e : Nat) (N : Finset Nat) : Prop where
  added : PagesAdded k.machine u.machine root (pageCeil k.current.heapEnd) (pageCeil e) N
  proc : u.currentProcess = k.currentProcess
  current : u.current = { k.current with heapEnd := e }

section Call

variable {k u : Kernel} {increment : BitVec 64} {root b e : Nat} {N : Finset Nat}

/-- `loopPages` are the rounds of the loop. -/
theorem sysHeapGrow_loopPages (hcur : k.currentProcess ≠ 0)
    (hpos : ¬ (increment = 0 ∨ increment.slt 0 = true)) :
    sysHeapGrow k increment =
      ((loopPages k increment).foldlM (fun m va => growPage k.current.pageDir va m) k.machine >>=
        fun m => .ok (BitVec.ofNat 64 k.current.heapEnd,
          { k with machine := m }.modify k.currentProcess fun p =>
            { p with heapEnd := add64 k.current.heapEnd increment.toNat })) := by
  obtain ⟨h0, hneg⟩ := not_or.mp hpos
  unfold sysHeapGrow loopPages pagesFrom
  rw [if_neg hcur, if_neg hpos, List.foldlM_map]
  simp only [if_neg h0, if_neg hneg, forRange_eq_foldlM]

/-- A positive increment is less than `2^63`. -/
theorem toNat_lt_of_pos (hpos : ¬ (increment = 0 ∨ increment.slt 0 = true)) :
    0 < increment.toNat ∧ increment.toNat < 2 ^ 63 := by
  obtain ⟨h0, hneg⟩ := not_or.mp hpos
  refine ⟨Nat.pos_of_ne_zero fun hzero => h0 (BitVec.eq_of_toNat_eq hzero), ?_⟩
  by_contra hge
  refine hneg ((BitVec.slt_zero_eq_msb (x := increment)).trans ?_)
  rw [BitVec.msb_eq_decide]
  exact decide_eq_true (Nat.le_of_not_lt hge)

/-- Rounding up, without an overflow. -/
theorem pageCeil_spec {a : Nat} (h : a + 0xFFF < 2 ^ 64) :
    a ≤ pageCeil a ∧ pageCeil a < a + pageSize ∧ pageCeil a % pageSize = 0 := by
  refine ⟨?_, ?_, pageCeil_mod a⟩ <;> unfold pageCeil pageSize <;> rw [add64_eq h] <;> omega

/-- The pages that a call maps begin in the part by which the heap grows. -/
theorem HeapAt.mem_loopPages (h : HeapAt k root b) (hb : b ≤ 2 ^ 47) {a : Nat} :
    a ∈ loopPages k increment ↔ a % pageSize = 0 ∧ b ≤ a ∧ a < newBreak b increment := by
  unfold loopPages newBreak pagesFrom
  rw [h.heapEnd]
  by_cases hpos : increment = 0 ∨ increment.slt 0 = true
  · rw [if_pos hpos, if_pos hpos]
    simp only [List.not_mem_nil, false_iff]
    omega
  · have hlt := (toNat_lt_of_pos hpos).2
    rw [if_neg hpos, if_neg hpos]
    dsimp only
    rw [add64_eq (by omega)]
    obtain ⟨hlo, hlo', hmod⟩ := @pageCeil_spec b (by omega)
    obtain ⟨hhi, hhi', hmod'⟩ := @pageCeil_spec (b + increment.toNat) (by omega)
    simp only [List.mem_map, List.mem_range]
    generalize pageCeil b = lo at *
    generalize pageCeil (b + increment.toNat) = hi at *
    unfold pageSize at *
    constructor
    · rintro ⟨i, hi, rfl⟩
      omega
    · rintro ⟨ha, hba, hae⟩
      exact ⟨(a - lo) / 4096, by omega, by omega⟩

/-- **A call that moves the break**, with its pages in the lower half. -/
theorem HeapAt.grow (h : HeapAt k root b) (hb : b ≤ 2 ^ 47)
    (hpos : ¬ (increment = 0 ∨ increment.slt 0 = true))
    (hlow : pageCeil (b + increment.toNat) ≤ 2 ^ 47) :
    Ensures (sysHeapGrow k increment)
      (fun _ => k.machine.pmm.freePages.card < 4 * (loopPages k increment).length)
      (fun r => r.1 = BitVec.ofNat 64 b ∧ ∃ N, HeapGrown k r.2 root (b + increment.toNat) N) := by
  have hlt := (toNat_lt_of_pos hpos).2
  have hceil := @pageCeil_add b (b + increment.toNat) (Nat.le_add_right _ _) (by omega)
  have hlen : (loopPages k increment).length =
      (pageCeil (b + increment.toNat) - pageCeil b) / pageSize := by
    rw [loopPages, if_neg hpos, h.heapEnd]
    dsimp only
    rw [add64_eq (by omega), pagesFrom, List.length_map, List.length_range]
  rw [hlen]
  have hloop := h.space.growLoop (pageCeil_mod b) (hceil.trans_le hlow)
  have heq := sysHeapGrow_eq (t := k) h.current hpos (by rw [h.heapEnd]; omega)
  rw [heq, h.pageDir, h.heapEnd]
  refine Ensures.bind hloop ?_
  rintro m ⟨N, hN⟩
  rw [hceil] at hN
  refine ensures_ok.mpr ⟨rfl, N, ?_, rfl, ?_⟩
  · rw [h.heapEnd]
    exact hN
  · dsimp only
    rw [Kernel.current, Kernel.modify_currentProcess, Kernel.modify_self]
    rfl

/-- The process after it. -/
theorem HeapGrown.heapAt (hg : HeapGrown k u root e N) (h : HeapAt k root b) : HeapAt u root e := by
  refine ⟨?_, hg.added.space, ?_, ?_⟩
  · rw [hg.proc]
    exact h.current
  · rw [hg.current]
    exact h.pageDir
  · rw [hg.current]

end Call

/-! ## 3. Stores, and runs -/

/-- A program stores a byte at an address that is mapped to frame `f`. -/
def Kernel.store (k : Kernel) (v f : Nat) (b : BitVec 8) : Kernel :=
  { k with machine :=
      ⟨Function.update k.machine.mem (frameAddr f + v % 4096) b, k.machine.pmm⟩ }

/-- The address is in a page of the heap. -/
def Kernel.OnHeap (k : Kernel) (v : Nat) : Prop :=
  k.current.heapStart ≤ v ∧ v / pageSize * pageSize < k.current.heapEnd

/-- By how much a call moves the break. -/
def grownBy (increment : BitVec 64) : Nat :=
  if increment = 0 ∨ increment.slt 0 then 0 else increment.toNat

/-- The sum of the positive increments. -/
def totalGrowth (increments : List (BitVec 64)) : Nat := (increments.map grownBy).sum

/-- `HeapRun root k increments pages stored u`: from `k` on the process has called `sys_heap_grow` with these
increments, keeping its break at or below the user stack; the loops of the calls had the rounds `pages`.
In between it has stored to its heap, `stored` being the last value for each address, 0 if there is none. -/
inductive HeapRun (root : Nat) (k : Kernel) :
    List (BitVec 64) → List Nat → (Nat → BitVec 8) → Kernel → Prop
  | start : HeapRun root k [] [] (fun _ => 0) k
  | grow {increments : List (BitVec 64)} {pages : List Nat} {stored : Nat → BitVec 8} {t u : Kernel}
      {increment rax : BitVec 64} (h : HeapRun root k increments pages stored t)
      (hbreak : newBreak t.current.heapEnd increment ≤ userStackPage)
      (hok : sysHeapGrow t increment = .ok (rax, u)) :
      HeapRun root k (increments ++ [increment]) (pages ++ loopPages t increment) stored u
  | store {increments : List (BitVec 64)} {pages : List Nat} {stored : Nat → BitVec 8} {t : Kernel}
      {v f : Nat} {b : BitVec 8} (h : HeapRun root k increments pages stored t) (hv : t.OnHeap v)
      (hmap : UserMapped t.machine.mem root v f) :
      HeapRun root k increments pages (Function.update stored v b) (t.store v f b)

section Store

variable {s : Machine} {root v f : Nat}

/-- The entry behind a page that a program may write to. -/
theorem UserSpace.of_userMapped (h : UserSpace s root) (hv : LowerHalf v)
    (hmap : UserMapped s.mem root v f) :
    present (pte s.mem root v) = true ∧ frame (pte s.mem root v) = f := by
  rw [UserMapped, h.translate_eq hv] at hmap
  split at hmap
  · rename_i hpres
    exact ⟨hpres, (Mapping.small.inj (Option.some.inj hmap)).1⟩
  · cases hmap

/-- **A store** changes the byte at its address, and nothing else that a program finds. -/
theorem UserSpace.store (h : UserSpace s root) (hv : LowerHalf v) (hmap : UserMapped s.mem root v f)
    (b : BitVec 8) : UserSpace ⟨Function.update s.mem (frameAddr f + v % 4096) b, s.pmm⟩ root ∧
      SameTables s.mem (Function.update s.mem (frameAddr f + v % 4096) b) root ∧
      ∀ w, LowerHalf w → readByte (Function.update s.mem (frameAddr f + v % 4096) b) root w =
        if w = v then some b else readByte s.mem root w := by
  obtain ⟨hpres, rfl⟩ := h.of_userMapped hv hmap
  obtain ⟨hused, hnot⟩ := h.used v hv hpres
  have hf := h.wf.lt_of_used hused
  have hlt : ∀ w, w % 4096 < 4096 := fun w => Nat.mod_lt w (by decide)
  have honly : OnlyIn s.mem (Function.update s.mem
      (frameAddr (frame (pte s.mem root v)) + v % 4096) b) {frame (pte s.mem root v)} := by
    intro q hq hqf j hj
    have := frameAddr_apart hq hf hqf
    have := hlt v
    exact Function.update_of_ne (by omega) _ _
  have hsame := h.sameTables honly (by
    rintro q hq rfl
    exact hnot hq)
  have hspace := h.write hsame
  refine ⟨hspace, hsame, fun w hw => ?_⟩
  rw [hspace.readByte_eq hw, h.readByte_eq hw, hsame.pte_eq]
  by_cases hwv : w = v
  · subst hwv
    rw [if_pos hpres, if_pos rfl]
    exact congrArg some (Function.update_self ..)
  · rw [if_neg hwv]
    split
    · rename_i hpres'
      refine congrArg some (Function.update_of_ne (fun heq => hwv ?_) _ _)
      -- the same byte of the same frame is the same address
      have hframe : frame (pte s.mem root w) = frame (pte s.mem root v) := by
        by_contra hne
        have := frameAddr_apart (h.wf.lt_of_used (h.used w hw hpres').1) hf hne
        have := hlt v
        have := hlt w
        omega
      have hpage := h.inj w v hw hv hpres' hpres hframe
      rw [hframe] at heq
      unfold pageSize at hpage
      omega
    · rfl

end Store

/-! ## 4. The law of the heap -/

/-- A heap before its first growth. -/
structure HeapReady (k : Kernel) (root : Nat) : Prop where
  at_start : HeapAt k root k.current.heapStart
  aligned : k.current.heapStart % pageSize = 0

/-- **The heap after a run.**  The break has moved by the positive increments, every page of the heap was
the round of one loop, a program may write to it all and finds what it has stored. -/
structure HeapLaw (k u : Kernel) (root : Nat) (increments : List (BitVec 64)) (pages : List Nat)
    (stored : Nat → BitVec 8) : Prop where
  heapAt : HeapAt u root (k.current.heapStart + totalGrowth increments)
  heapStart : u.current.heapStart = k.current.heapStart
  bound : totalGrowth increments = 0 ∨ u.current.heapEnd ≤ userStackPage
  pages : pages = pagesFrom k.current.heapStart ((totalGrowth increments + 0xFFF) / pageSize)
  heap : ∀ v, u.OnHeap v → (∃ f, UserMapped u.machine.mem root v f) ∧
    readByte u.machine.mem root v = some (stored v)
  rest : ∀ v, ¬ u.OnHeap v → stored v = 0

/-- **A call** of `sys_heap_grow` with its result. -/
structure HeapCall (t u : Kernel) (root : Nat) (increment rax : BitVec 64) : Prop where
  rax : rax = if increment.slt 0 then -1 else BitVec.ofNat 64 t.current.heapEnd
  still : increment = 0 ∨ increment.slt 0 = true → u = t
  zero : ∀ va ∈ loopPages t increment, ∀ v, va ≤ v → v < va + pageSize →
    readByte u.machine.mem root v = some 0
  kept : ∀ v, t.OnHeap v → readByte u.machine.mem root v = readByte t.machine.mem root v

section Law

variable {k t u : Kernel} {root n m lo : Nat} {increments : List (BitVec 64)} {increment : BitVec 64}
  {pages : List Nat} {stored : Nat → BitVec 8}

theorem newBreak_eq (b : Nat) (increment : BitVec 64) :
    newBreak b increment = b + grownBy increment := by
  unfold newBreak grownBy
  split <;> rfl

theorem totalGrowth_append (increments : List (BitVec 64)) (increment : BitVec 64) :
    totalGrowth (increments ++ [increment]) = totalGrowth increments + grownBy increment := by
  simp [totalGrowth]

theorem pagesFrom_append (lo n m : Nat) :
    pagesFrom lo n ++ pagesFrom (lo + n * pageSize) m = pagesFrom lo (n + m) := by
  unfold pagesFrom
  rw [List.range_add, List.map_append, List.map_map]
  refine congrArg _ (List.map_congr_left fun i _ => ?_)
  rw [Function.comp_apply, Nat.add_mul, Nat.add_assoc]

/-- The rounds from one break to the next, both rounded up. -/
theorem pageCeil_eq {a : Nat} (hlo : lo % pageSize = 0) (ha : lo + a + 0xFFF < 2 ^ 64) :
    pageCeil (lo + a) = lo + (a + 0xFFF) / pageSize * pageSize := by
  unfold pageCeil
  rw [add64_eq ha]
  unfold pageSize at *
  omega

theorem lt_pageCeil_iff {a v : Nat} (ha : a + 0xFFF < 2 ^ 64) :
    v < pageCeil a ↔ v / pageSize * pageSize < a := by
  obtain ⟨hle, hlt, hmod⟩ := pageCeil_spec ha
  unfold pageSize at *
  omega

/-- The rounds of a call follow those of the calls before it. -/
theorem pagesFrom_grow {a c : Nat} (hlo : lo % pageSize = 0) (h : a ≤ c)
    (hc : lo + c + 0xFFF < 2 ^ 64) :
    pagesFrom lo ((a + 0xFFF) / pageSize) ++
        pagesFrom (pageCeil (lo + a)) ((pageCeil (lo + c) - pageCeil (lo + a)) / pageSize) =
      pagesFrom lo ((c + 0xFFF) / pageSize) := by
  have hrounds : (a + 0xFFF) / pageSize ≤ (c + 0xFFF) / pageSize :=
    Nat.div_le_div_right (Nat.add_le_add_right h _)
  rw [pageCeil_eq hlo hc, @pageCeil_eq lo a hlo (by omega), Nat.add_sub_add_left, ← Nat.sub_mul,
    Nat.mul_div_cancel _ (by decide), pagesFrom_append, Nat.add_sub_cancel' hrounds]

theorem HeapReady.law (h : HeapReady k root) : HeapLaw k k root [] [] fun _ => 0 := by
  have haligned := h.aligned
  refine ⟨h.at_start, rfl, Or.inl rfl, rfl, fun v hv => ?_, fun _ _ => rfl⟩
  obtain ⟨hlo, hhi⟩ := hv
  rw [h.at_start.heapEnd] at hhi
  unfold pageSize at *
  omega

/-- A page of the heap is in the lower half. -/
theorem HeapLaw.lowerHalf (h : HeapLaw k t root increments pages stored) (hk : HeapReady k root)
    {v : Nat} (hv : t.OnHeap v) : LowerHalf v := by
  obtain ⟨hlo, hhi⟩ := hv
  have haligned := hk.aligned
  have hend := h.heapAt.heapEnd
  rw [h.heapStart] at hlo
  unfold LowerHalf
  rcases h.bound with hzero | hbound
  · rw [hend, hzero] at hhi
    unfold pageSize at *
    omega
  · unfold userStackPage at hbound
    unfold pageSize at *
    omega

/-- **A store** to the heap. -/
theorem HeapLaw.store (h : HeapLaw k t root increments pages stored) (hk : HeapReady k root)
    {v f : Nat} (b : BitVec 8) (hv : t.OnHeap v) (hmap : UserMapped t.machine.mem root v f) :
    HeapLaw k (t.store v f b) root increments pages (Function.update stored v b) := by
  obtain ⟨hspace, hsame, hread⟩ := h.heapAt.space.store (h.lowerHalf hk hv) hmap b
  refine ⟨⟨h.heapAt.current, hspace, h.heapAt.pageDir, h.heapAt.heapEnd⟩, h.heapStart, h.bound, h.pages,
    fun w hw => ?_, fun w hw => ?_⟩
  · have hw : t.OnHeap w := hw
    obtain ⟨⟨g, hg⟩, hbyte⟩ := h.heap w hw
    refine ⟨⟨g, hsame.kept hg⟩, (hread w (h.lowerHalf hk hw)).trans ?_⟩
    by_cases hwv : w = v
    · rw [if_pos hwv, hwv, Function.update_self]
    · rw [if_neg hwv, Function.update_of_ne hwv, hbyte]
  · have hwv : w ≠ v := by
      rintro rfl
      exact hw hv
    rw [Function.update_of_ne hwv, h.rest w hw]

/-- **A call that moves the break**, at or below the user stack. -/
theorem HeapLaw.grown {N : Finset Nat} (h : HeapLaw k t root increments pages stored)
    (hk : HeapReady k root) (hpos : ¬ (increment = 0 ∨ increment.slt 0 = true))
    (hbreak : t.current.heapEnd + increment.toNat ≤ userStackPage)
    (hg : HeapGrown t u root (t.current.heapEnd + increment.toNat) N) :
    HeapLaw k u root (increments ++ [increment]) (pages ++ loopPages t increment) stored ∧
      HeapCall t u root increment (BitVec.ofNat 64 t.current.heapEnd) := by
  have hgrown : grownBy increment = increment.toNat := if_neg hpos
  have hend := h.heapAt.heapEnd
  have htotal := totalGrowth_append increments increment
  rw [hgrown] at htotal
  have hle : t.current.heapEnd ≤ userStackPage := (Nat.le_add_right _ _).trans hbreak
  have hceil := add_lt_of_le_userStackPage hle
  have hceil' := add_lt_of_le_userStackPage hbreak
  have hsum : k.current.heapStart + totalGrowth (increments ++ [increment]) =
      t.current.heapEnd + increment.toNat := by
    rw [htotal, hend, Nat.add_assoc]
  have hu := hg.heapAt h.heapAt
  have hstart : u.current.heapStart = t.current.heapStart := by rw [hg.current]
  -- the heap has grown by the pages of the loop
  have hold : ∀ v, t.OnHeap v ↔ t.current.heapStart ≤ v ∧ v < pageCeil t.current.heapEnd := fun v =>
    and_congr_right fun _ => (lt_pageCeil_iff hceil).symm
  have hnew : ∀ v, u.OnHeap v ↔ t.current.heapStart ≤ v ∧
      v < pageCeil (t.current.heapEnd + increment.toNat) := by
    intro v
    rw [Kernel.OnHeap, hstart, hu.heapEnd, lt_pageCeil_iff hceil']
  have hmono := pageCeil_mono (Nat.le_add_right t.current.heapEnd increment.toNat) hceil'
  have hkept : ∀ v, t.OnHeap v → readByte u.machine.mem root v = readByte t.machine.mem root v :=
    fun v hv => hg.added.bytes v (h.lowerHalf hk hv) fun hin =>
      Nat.not_le_of_lt ((hold v).mp hv).2 hin.1
  refine ⟨⟨?_, hstart.trans h.heapStart, Or.inr ?_, ?_, fun v hv => ?_, fun v hv => h.rest v fun hv' => ?_⟩,
    ?_, fun hstill => absurd hstill hpos, fun va hva v hlo hhi => ?_, hkept⟩
  · rw [hsum]
    exact hu
  · rw [hu.heapEnd]
    exact hbreak
  · rw [h.pages, loopPages, if_neg hpos]
    dsimp only
    rw [add64_eq (by omega), ← hsum, hend]
    exact pagesFrom_grow hk.aligned (by omega) (by omega)
  · by_cases hv' : t.OnHeap v
    · have hlow := h.lowerHalf hk hv'
      have hpte := hg.added.entries v hlow fun hin => Nat.not_le_of_lt ((hold v).mp hv').2 hin.1
      obtain ⟨⟨f, hf⟩, hbyte⟩ := h.heap v hv'
      refine ⟨⟨f, ?_⟩, (hkept v hv').trans hbyte⟩
      rw [UserMapped, hu.space.translate_eq hlow, hpte, ← h.heapAt.space.translate_eq hlow]
      exact hf
    · have hlo : pageCeil t.current.heapEnd ≤ v :=
        Nat.le_of_not_lt fun hlt => hv' ((hold v).mpr ⟨((hnew v).mp hv).1, hlt⟩)
      obtain ⟨⟨f, -, hf⟩, hzero⟩ := hg.added.inside v hlo ((hnew v).mp hv).2
      exact ⟨⟨f, hf⟩, by rw [hzero, h.rest v hv']⟩
  · exact hv ((hnew v).mpr ⟨((hold v).mp hv').1, ((hold v).mp hv').2.trans_le hmono⟩)
  · rw [if_neg fun hneg => hpos (Or.inr hneg)]
  · obtain ⟨hmod, hfrom, hto⟩ := (h.heapAt.mem_loopPages (by unfold userStackPage at hle; omega)).mp hva
    rw [newBreak, if_neg hpos, ← hend] at hto
    refine (hg.added.inside v (Nat.le_of_not_lt fun hlt => ?_) ((lt_pageCeil_iff hceil').mpr ?_)).2
    · rw [lt_pageCeil_iff hceil] at hlt
      unfold pageSize at *
      omega
    · unfold pageSize at *
      omega

/-- **Every call**, as long as the break stays at or below the user stack.  It fails only for want of
pages. -/
theorem HeapLaw.call (h : HeapLaw k t root increments pages stored) (hk : HeapReady k root)
    (hbreak : newBreak t.current.heapEnd increment ≤ userStackPage) :
    Ensures (sysHeapGrow t increment)
      (fun _ => t.machine.pmm.freePages.card < 4 * (loopPages t increment).length)
      (fun r => HeapLaw k r.2 root (increments ++ [increment]) (pages ++ loopPages t increment) stored ∧
        HeapCall t r.2 root increment r.1) := by
  by_cases hpos : increment = 0 ∨ increment.slt 0 = true
  · have hnone : loopPages t increment = [] := if_pos hpos
    have htotal : totalGrowth (increments ++ [increment]) = totalGrowth increments := by
      rw [totalGrowth_append, grownBy, if_pos hpos, Nat.add_zero]
    rw [sysHeapGrow_still h.heapAt.current hpos, hnone, List.append_nil]
    refine ensures_ok.mpr ⟨⟨?_, h.heapStart, ?_, ?_, h.heap, h.rest⟩, ?_, fun _ => rfl, ?_, fun _ _ => rfl⟩
    · rw [htotal]
      exact h.heapAt
    · rw [htotal]
      exact h.bound
    · rw [htotal]
      exact h.pages
    · by_cases h0 : increment = 0
      · subst h0
        rfl
      · rw [if_neg h0, if_pos (hpos.resolve_left h0)]
    · rw [hnone]
      exact fun va hva => nomatch hva
  · rw [newBreak, if_neg hpos] at hbreak
    have hend := h.heapAt.heapEnd
    have hle : t.current.heapEnd ≤ userStackPage := (Nat.le_add_right _ _).trans hbreak
    have hat : HeapAt t root t.current.heapEnd := hend.symm ▸ h.heapAt
    refine (hat.grow (hle.trans (by decide)) hpos ((pageCeil_le hbreak).trans (by decide))).mono
      (fun _ he => he) ?_
    rintro ⟨rax, u⟩ ⟨rfl, N, hg⟩
    exact h.grown hk hpos hbreak hg

/-- By induction on the run. -/
theorem HeapReady.run (hk : HeapReady k root) (hrun : HeapRun root k increments pages stored u) :
    HeapLaw k u root increments pages stored := by
  induction hrun with
  | start => exact hk.law
  | grow _ hbreak hok ih => exact ((ih.call hk hbreak).of_ok hok).1
  | store _ hv hmap ih => exact ih.store hk _ hv hmap

theorem Launched.heapReady {q : Process} {m : Machine} (h : Launched m q root) (hm : k.machine = m)
    (hq : k.current = q) (hcur : k.currentProcess ≠ 0) : HeapReady k root := by
  subst hm hq
  exact ⟨⟨hcur, h.space, h.pageDir, h.heapEnd⟩, h.aligned⟩

end Law

/-- **Heap growth.**  A process that `elf_load` has made of an image with its segments in the lower half
has a heap that is ready; from such a state, or any like it, every run of calls and stores keeps the law
of the heap, and where there are pages enough the next call returns.  Whether pages beyond the heap were
mapped before does not matter. -/
theorem heap_growth_law :
    (∀ (s : Machine) (p : Process) (root stack file : Nat) (argv : Option (List (List (BitVec 8))))
      (entry : Nat) (q : Process) (t : Machine) (k : Kernel),
      Launch s p root stack → elfHeaderOk s.mem file = true → HeadersUntouched s root stack file →
      SegmentsLow s.mem file → elfLoad s file p argv = .ok (entry, q, t) →
      k.machine = t → k.current = q → k.currentProcess ≠ 0 → HeapReady k root) ∧
    ∀ (k : Kernel) (root : Nat), HeapReady k root →
      ∀ (increments : List (BitVec 64)) (pages : List Nat) (stored : Nat → BitVec 8) (u : Kernel),
        HeapRun root k increments pages stored u →
        HeapLaw k u root increments pages stored ∧
          ∀ increment, newBreak u.current.heapEnd increment ≤ userStackPage →
            4 * (loopPages u increment).length ≤ u.machine.pmm.freePages.card →
            ∃ rax w, sysHeapGrow u increment = .ok (rax, w) ∧ HeapCall u w root increment rax := by
  refine ⟨?_, ?_⟩
  · intro s p root stack file argv entry q t k hpre hok hheaders hlow hload hm hq hcur
    exact ((elfLoad_space argv hpre hok hheaders hlow).of_ok hload).1.heapReady hm hq hcur
  · intro k root hk increments pages stored u hrun
    have hlaw := hk.run hrun
    refine ⟨hlaw, fun increment hbreak hfree => ?_⟩
    obtain ⟨⟨rax, w⟩, hok, -, hcall⟩ :=
      (hlaw.call hk hbreak).exists_ok fun _ hlt => Nat.not_lt_of_le hfree hlt
    exact ⟨rax, w, hok, hcall⟩

/-! ### A loaded program -/

/-- The kernel with a process that was loaded. -/
def runningKernel (q : Process) (t : Machine) : Kernel :=
  { bootKernel with machine := t, pcb := fun _ => q, currentProcess := 0x1000 }

/-- An image in frame 3 that takes two pages at most. -/
structure SmallImage (image : List (BitVec 8)) : Prop where
  accepted : elfHeaderOk (imageMachine image).mem (frameAddr 3) = true
  table : ∀ i < elfPhnum (imageMachine image).mem (frameAddr 3),
    phdrAddr (imageMachine image).mem (frameAddr 3) i = frameAddr 3 + (64 + 56 * i) ∧ i < 64
  low : SegmentsLow (imageMachine image).mem (frameAddr 3)
  small : roundsUpTo (imageMachine image).mem (frameAddr 3)
    (elfPhnum (imageMachine image).mem (frameAddr 3)) ≤ 2

theorem SmallImage.load {image : List (BitVec 8)} (h : SmallImage image) : ∃ entry q t,
    elfLoad (imageMachine image) (frameAddr 3) (pcbWithPages 2 1) none = .ok (entry, q, t) ∧
      Launched t q 1 ∧ q.heapStart = imageEnd (imageMachine image).mem (frameAddr 3)
        (elfPhnum (imageMachine image).mem (frameAddr 3)) ∧ 44 ≤ t.pmm.freePages.card := by
  have hsmall := h.small
  have hfree : (imageMachine image).pmm.freePages.card = 56 :=
    (by decide +kernel : eightUsed.freePages.card = 56)
  obtain ⟨⟨entry, q, t⟩, hload, hlaunched, hend, hcard⟩ := (elfLoad_space none
    (launch_imageMachine image) h.accepted (headersUntouched_imageMachine h.table) h.low).exists_ok
    fun _ hlt => by omega
  refine ⟨entry, q, t, hload, hlaunched, hend, ?_⟩
  dsimp only at hcard
  omega

/-- Its heap may grow by some pages. -/
theorem Launched.exists_grow {t : Machine} {q : Process} {increment : BitVec 64}
    (h : Launched t q 1) (hpos : ¬ (increment = 0 ∨ increment.slt 0 = true))
    (hlow : pageCeil (q.heapStart + increment.toNat) ≤ 2 ^ 47) (hfree : 44 ≤ t.pmm.freePages.card)
    (hfew : (loopPages (runningKernel q t) increment).length ≤ 11) :
    ∃ rax u, sysHeapGrow (runningKernel q t) increment = .ok (rax, u) := by
  have hready : HeapReady (runningKernel q t) 1 := h.heapReady rfl rfl (Nat.succ_ne_zero _)
  have hroom : ¬ t.pmm.freePages.card < 4 * (loopPages (runningKernel q t) increment).length := by
    omega
  obtain ⟨⟨rax, u⟩, hu, -⟩ := (hready.at_start.grow h.low hpos hlow).exists_ok fun _ => hroom
  exact ⟨rax, u, hu⟩

theorem smallImage_sharedPage : SmallImage sharedPage := by
  have hnum : elfPhnum (imageMachine sharedPage).mem (frameAddr 3) = 2 := by decide +kernel
  refine ⟨elfImage_sharedPage.accepted, fun i hi => ?_, fun i hi _ => ?_, by decide +kernel⟩
  · rw [hnum] at hi
    interval_cases i <;> decide +kernel
  · unfold Phdr.InLowerHalf
    rcases segments_sharedPage hi with ⟨-, h⟩ | ⟨-, h⟩ <;> rw [h] <;> decide

theorem imageEnd_sharedPage : imageEnd (imageMachine sharedPage).mem (frameAddr 3)
    (elfPhnum (imageMachine sharedPage).mem (frameAddr 3)) = 0x401000 := by
  decide +kernel

/-- 5000 bytes for a program whose image ends at 0x401000: two pages, and a break within the second. -/
theorem grow_sharedPage : ∃ entry q t rax u,
    elfLoad (imageMachine sharedPage) (frameAddr 3) (pcbWithPages 2 1) none = .ok (entry, q, t) ∧
      q.heapStart = 0x401000 ∧ q.heapEnd = 0x401000 ∧
      loopPages (runningKernel q t) 5000 = [0x401000, 0x402000] ∧
      sysHeapGrow (runningKernel q t) 5000 = .ok (rax, u) := by
  obtain ⟨entry, q, t, hload, hlaunched, hend, hfree⟩ := smallImage_sharedPage.load
  rw [imageEnd_sharedPage] at hend
  have hbreak : (runningKernel q t).current.heapEnd = 0x401000 := hlaunched.heapEnd.trans hend
  have hpages : loopPages (runningKernel q t) 5000 = [0x401000, 0x402000] := by
    unfold loopPages
    rw [hbreak]
    decide
  obtain ⟨rax, u, hu⟩ := @Launched.exists_grow t q 5000 hlaunched (by decide) (by rw [hend]; decide)
    hfree (by rw [hpages]; decide)
  exact ⟨entry, q, t, rax, u, hload, hend, hbreak, hpages, hu⟩

theorem heap_growth_law_shared_page : ∃ entry q t rax u,
    elfLoad (imageMachine sharedPage) (frameAddr 3) (pcbWithPages 2 1) none = .ok (entry, q, t) ∧
      sysHeapGrow (runningKernel q t) 5000 = .ok (rax, u) ∧
      HeapLaw (runningKernel q t) u 1 [5000] [0x401000, 0x402000] fun _ => 0 := by
  obtain ⟨entry, q, t, rax, u, hload, -, hend, hpages, hu⟩ := grow_sharedPage
  have himage := smallImage_sharedPage
  have hready := heap_growth_law.1 _ _ 1 2 _ none _ _ _ (runningKernel q t) (launch_imageMachine sharedPage)
    himage.accepted (headersUntouched_imageMachine himage.table) himage.low hload rfl rfl
    (Nat.succ_ne_zero _)
  have hbreak : newBreak (runningKernel q t).current.heapEnd 5000 ≤ userStackPage := by
    rw [show (runningKernel q t).current.heapEnd = 0x401000 from hend]
    decide
  have hlaw := (heap_growth_law.2 _ 1 hready _ _ _ u (HeapRun.start.grow hbreak hu)).1
  rw [hpages] at hlaw
  exact ⟨entry, q, t, rax, u, hload, hu, hlaw⟩

end AcornOS
