/-
# The address space that `elf_load` leaves behind

For an image with its segments in the lower half the loader gives a `UserSpace`, whatever else its
headers say: segments may overlap, be larger in the file than in memory, or take the place of the user
stack.  What is filled through an unmapped page goes to physical page 0, which is no table.

* `Launch`: a new PML4, empty in its lower half, and a kernel stack.
* `Launching`: what holds while the loader works, `M` being the addresses that may be mapped.
* `imageEnd`: where `heap_start` comes from.
* `elfLoad_space`: the space at the end.  Nothing is mapped from `heap_start` on, except for the user
  stack.
-/
import AcornOS.Core.ElfImage
import AcornOS.Processes.Spaces

namespace AcornOS

open Lib

/-! ## 1. Before and during the loading -/

/-- What `elf_load` is called with: a directory that is empty in its lower half, and a kernel stack. -/
structure Launch (s : Machine) (p : Process) (root stack : Nat) : Prop where
  wf : s.Wf
  tree : TableTree s root
  zero : 0 ∉ root :: tables s.mem root
  empty : ∀ i < 256, present (entry s.mem root i) = false
  pageDir : p.pageDir = frameAddr root
  stackTop : p.stackTop = frameAddr stack + 8 * 511
  used : s.pmm.Used stack
  apart : stack ∉ root :: tables s.mem root

/-- The frames in use that may be written to: page 0, the kernel stack and the tables. -/
def Touched (s : Machine) (root stack : Nat) : Set Nat :=
  {q | q = 0 ∨ q = stack ∨ q ∈ root :: tables s.mem root}

/-- An address in a page that is in use and stays as it is. -/
def Untouched (s : Machine) (root stack a : Nat) : Prop :=
  ∃ f k, a = frameAddr f + k ∧ k < 4096 ∧ s.pmm.Used f ∧ f ∉ Touched s root stack

/-- The header and the program headers are where the loader does not write. -/
structure HeadersUntouched (s : Machine) (root stack file : Nat) : Prop where
  header : ∀ k < 68, Untouched s root stack (file + k)
  table : ∀ i < elfPhnum s.mem file, ∀ k < sizeofPhdr,
    Untouched s root stack (phdrAddr s.mem file i + k)

/-- The segment, in memory and in the file, is in the lower half. -/
def Phdr.InLowerHalf (ph : Phdr) : Prop :=
  ph.vaddr + ph.memsz ≤ 2 ^ 47 ∧ ph.vaddr + ph.filesz ≤ 2 ^ 47

def SegmentsLow (m : Memory) (file : Nat) : Prop :=
  ∀ i < elfPhnum m file, IsLoad m file i → (segment m file i).InLowerHalf

/-- `Launching s t root stack M N n`: from `s` to `t` the frames `N` were taken in `n` rounds of `pmm_alloc`
and `map_page_in`, and only addresses of `M` are mapped, to some of these. -/
structure Launching (s t : Machine) (root stack : Nat) (M : Set Nat) (N : Finset Nat) (n : Nat) :
    Prop where
  space : UserSpace t root
  takes : Takes s.pmm t.pmm N
  few : N.card ≤ 4 * n
  only : OnlyIn s.mem t.mem (Touched s root stack ∪ N)
  tables : ∀ q ∈ tables t.mem root, q ∈ tables s.mem root ∨ q ∈ N
  mapped : ∀ v, LowerHalf v → present (pte t.mem root v) = true →
    frame (pte t.mem root v) ∈ N ∧ v ∈ M

section Steps

variable {s t : Machine} {p : Process} {root stack file va f n : Nat} {M M' : Set Nat} {N : Finset Nat}

/-- A path that ends in the PML4. -/
theorem tableAt_empty (h : present (entry s.mem root (pml4Index va)) = false) {is : List Nat} :
    tableAt s.mem root (pml4Index va :: is) = none := by
  have hi : pml4Index va < tableWidth 3 := pml4Index_lt_512 va
  rw [tableAt, walk_cons hi, tableKids_absent (by rw [h]; decide)]
  rfl

theorem pml4Index_of_lower (h : LowerHalf va) : pml4Index va < 256 := by
  unfold LowerHalf at h
  unfold pml4Index
  omega

theorem Launch.pte_eq (h : Launch s p root stack) (hva : LowerHalf va) : pte s.mem root va = 0 := by
  rw [pte, tablePath, tableAt_empty (h.empty _ (pml4Index_of_lower hva))]
  rfl

/-- Nothing is met on the way through an empty half. -/
theorem Launch.onPath (h : Launch s p root stack) (P : Nat → Nat → Prop) (hva : LowerHalf va) :
    OnPath P s.mem root va := by
  have hempty := h.empty _ (pml4Index_of_lower hva)
  intro is i l q hpre _ hat hpres
  cases is with
  | nil =>
    rw [tableAt, walk_nil] at hat
    obtain ⟨rfl, -⟩ := List.cons_prefix_cons.mp hpre
    rw [← Option.some.inj hat, hempty] at hpres
    cases hpres
  | cons j is =>
    obtain ⟨rfl, -⟩ := List.cons_prefix_cons.mp hpre
    rw [tableAt_empty hempty] at hat
    cases hat

theorem Launch.space (h : Launch s p root stack) : UserSpace s root where
  wf := h.wf
  tree := h.tree
  zero := h.zero
  plain v hv := not_hugeOnPath_iff.mpr (h.onPath _ hv)
  passable v hv := h.onPath _ hv
  used v hv hp := by
    rw [h.pte_eq hv] at hp
    cases hp
  inj v w hv _ hp := by
    rw [h.pte_eq hv] at hp
    cases hp

theorem Launch.launching (h : Launch s p root stack) : Launching s s root stack ∅ ∅ 0 where
  space := h.space
  takes := Takes.refl _
  few := Nat.zero_le _
  only := OnlyIn.refl _ _
  tables _ hq := Or.inl hq
  mapped v hv hp := by
    rw [h.pte_eq hv] at hp
    cases hp

theorem Launching.mono (h : Launching s t root stack M N n) (hM : M ⊆ M') :
    Launching s t root stack M' N n :=
  ⟨h.space, h.takes, h.few, h.only, h.tables, fun v hv hp => (h.mapped v hv hp).imp id fun hm => hM hm⟩

theorem Launching.untouched {a : Nat} (h : Launching s t root stack M N n) (hs : s.Wf)
    (ha : Untouched s root stack a) : t.mem a = s.mem a := by
  obtain ⟨g, k, rfl, hk, hg, hnot⟩ := ha
  refine h.only g (hs.lt_of_used hg) ?_ k hk
  rintro (hmem | hmem)
  · exact hnot hmem
  · exact h.takes.notMem_of_test hg.2 hmem

/-- A table was one before, or is new. -/
theorem Launching.tables_cases (h : Launching s t root stack M N n) {q : Nat}
    (hq : q ∈ root :: AcornOS.tables t.mem root) : q ∈ root :: AcornOS.tables s.mem root ∨ q ∈ N :=
  root_or_mem h.tables hq

/-- Writing to a page that is no table. -/
theorem Launching.write {m : Memory} (h : Launching s t root stack M N n) (honly : OnlyIn t.mem m {f})
    (hf : f ∈ Touched s root stack ∪ N) (hnot : f ∉ root :: AcornOS.tables t.mem root) :
    Launching s ⟨m, t.pmm⟩ root stack M N n ∧ ∀ v, pte m root v = pte t.mem root v := by
  have hsame : SameTables t.mem m root := h.space.sameTables honly (by
    rintro q hq rfl
    exact hnot hq)
  refine ⟨⟨h.space.write hsame, h.takes, h.few, h.only.trans (honly.mono ?_), ?_, ?_⟩, hsame.pte_eq⟩
  · rintro q rfl
    exact hf
  · rw [hsame.tables_eq]
    exact h.tables
  · intro v
    rw [hsame.pte_eq]
    exact h.mapped v

/-- **A new page.** -/
theorem Launching.mapZeroed (flags : Nat) (h : Launching s t root stack M N n) (hva : LowerHalf va)
    (hflags : flags % 2 = 1) (hM : ∀ v, v / pageSize = va / pageSize → v ∈ M) :
    Ensures (mapZeroed (frameAddr root) va flags t) (fun _ => s.pmm.freePages.card < 4 * (n + 1))
      (fun u => (∃ N', Launching s u root stack M N' (n + 1)) ∧
        present (pte u.mem root va) = true) := by
  have hcard := h.takes.card_add
  have hfew := h.few
  refine (mapZeroed_space flags h.space hva hflags).mono (fun _ he => by omega) ?_
  rintro u ⟨f, N', hadd⟩
  have hf : f < 2 ^ 40 := hadd.space.wf.lt_of_used (hadd.takes.used_of_mem hadd.mem)
  obtain ⟨-, hpres, -, hframe⟩ := pageEntry_spec hf hflags
  refine ⟨⟨N ∪ N', hadd.space, h.takes.trans hadd.takes, ?_, ?_, ?_, ?_⟩, ?_⟩
  · have := Finset.card_union_le N N'
    have := hadd.few
    omega
  · exact h.only.grow hadd.only fun q hq => (h.tables_cases hq).imp (fun hq => Or.inr (Or.inr hq)) id
  · intro q hq
    rcases hadd.tables q hq with hq | hq
    · exact (h.tables q hq).imp id (Finset.mem_union_left _)
    · exact Or.inr (Finset.mem_union_right _ hq)
  · intro v hv hp
    by_cases hpath : path v = path va
    · rw [pte_congr hpath, hadd.here, hframe]
      exact ⟨Finset.mem_union_right _ hadd.mem, hM v (path_inj hv hva hpath)⟩
    · rw [hadd.others v hpath] at hp ⊢
      exact (h.mapped v hv hp).imp (Finset.mem_union_left _) id
  · rw [hadd.here]
    exact hpres

/-! ## 2. Filling, and a segment -/

/-- Where the loops over bytes write: to the page that is mapped, or to page 0. -/
theorem Launching.exists_dst (h : Launching s t root stack M N n) (hva : LowerHalf va) :
    ∃ f < 2 ^ 40, f ∈ Touched s root stack ∪ N ∧ f ∉ root :: AcornOS.tables t.mem root ∧
      add64 (physicalToVirtual (getPhysicalOr 0 t (frameAddr root) (va / pageSize * pageSize)))
        (va % pageSize) = frameAddr f + va % 4096 := by
  have hlow : LowerHalf (va / pageSize * pageSize) :=
    Nat.lt_of_le_of_lt (Nat.div_mul_le_self va pageSize) hva
  have hget : getPhysicalOr 0 t (frameAddr root) (va / pageSize * pageSize) = _ :=
    h.space.getPhysicalIn_eq hlow
  rw [Nat.mul_mod_left, Nat.add_zero] at hget
  have hdst : ∀ f, add64 (physicalToVirtual (f * pageSize)) (va % pageSize) =
      frameAddr f + va % 4096 := by
    intro f
    have hend := frameAddr_add_le f
    have hoff : va % pageSize = va % 4096 := rfl
    rw [physicalToVirtual_page, hoff, add64_eq (by omega)]
  by_cases hpres : present (pte t.mem root (va / pageSize * pageSize)) = true
  · obtain ⟨hused, hnot⟩ := h.space.used _ hlow hpres
    refine ⟨_, h.space.wf.lt_of_used hused, Or.inr (h.mapped _ hlow hpres).1, hnot, ?_⟩
    rw [hget, if_pos hpres, hdst]
  · refine ⟨0, by decide, Or.inl (Or.inl rfl), h.space.zero, ?_⟩
    rw [hget, if_neg hpres]
    exact hdst 0

/-- **The loop over a range of addresses**, mapped or not. -/
theorem Launching.fillRange {k : Nat} (src : Option Nat) (h : Launching s t root stack M N n)
    (hend : va + k ≤ 2 ^ 47) :
    Launching s (fillRange 0 (frameAddr root) src va k t) root stack M N n := by
  refine fillRange_invariant (I := fun _ t => Launching s t root stack M N n) (by omega) h ?_
  intro i c u hpos hi hchunk hu
  have hva : LowerHalf (va + i) := by
    unfold LowerHalf
    omega
  obtain ⟨f, hf, hfmem, hfnot, hdst⟩ := hu.exists_dst hva
  rw [hdst]
  exact (hu.write (onlyIn_fillBytes _ hf hchunk) hfmem hfnot).1

namespace Phdr.InLowerHalf

variable {ph : Phdr} (h : ph.InLowerHalf)
include h

/-- `virtual_address_end` is the end rounded up, without an overflow. -/
theorem stop_spec : ph.vaddr + ph.memsz ≤ ph.stop ∧ ph.stop ≤ 2 ^ 47 ∧ ph.stop % pageSize = 0 := by
  have hend := h.1
  unfold Phdr.stop pageCeil pageSize
  rw [@add64_eq ph.vaddr ph.memsz (by omega), add64_eq (by omega)]
  omega

theorem page_lt {i v : Nat} (hi : i < ph.pages)
    (hv : v / pageSize = (ph.start + i * pageSize) / pageSize) : v < ph.stop := by
  obtain ⟨-, -, hmod⟩ := h.stop_spec
  unfold Phdr.pages at hi
  unfold Phdr.start at *
  unfold pageSize at *
  omega

theorem bss_add_le : ph.bss + ph.bssSize ≤ 2 ^ 47 := by
  obtain ⟨hmem, hfile⟩ := h
  unfold Phdr.bssSize Phdr.bss
  rw [@add64_eq ph.vaddr ph.filesz (by omega), @add64_eq ph.vaddr ph.memsz (by omega)]
  omega

end Phdr.InLowerHalf

section Segment

variable {ph : Phdr}

/-- **The loop over the pages of a segment.** -/
theorem Launching.mapPagesOf (h : Launching s t root stack M N n) (hlow : ph.InLowerHalf)
    (hM : ∀ v < ph.stop, v ∈ M) :
    Ensures (mapPagesOf (frameAddr root) ph t)
      (fun _ => s.pmm.freePages.card < 4 * (n + ph.pages))
      (fun u => ∃ N', Launching s u root stack M N' (n + ph.pages)) := by
  obtain ⟨-, hstop, -⟩ := hlow.stop_spec
  refine forRange_invariant (I := fun i u => ∃ N', Launching s u root stack M N' (n + i)) ⟨N, h⟩ ?_
  rintro i u hi ⟨N', hu⟩
  have hva : LowerHalf (ph.start + i * pageSize) := (hlow.page_lt hi rfl).trans_le hstop
  exact (hu.mapZeroed ph.pageFlags hva ph.pageFlags_mod fun v hv => hM v (hlow.page_lt hi hv)).mono
    (fun _ he => by omega) fun _ hw => hw.1

/-- **A PT_LOAD segment** whose header stays as it is. -/
theorem Launching.loadSegmentAt {a : Nat} (h : Launching s t root stack M N n) (hs : s.Wf)
    (ha : ∀ k < sizeofPhdr, Untouched s root stack (a + k)) (hph : phdrAt s.mem a = ph)
    (hlow : ph.InLowerHalf) (hM : ∀ v < ph.stop, v ∈ M) :
    Ensures (loadSegmentAt 0 (frameAddr root) file a t)
      (fun _ => s.pmm.freePages.card < 4 * (n + ph.pages))
      (fun u => ∃ N', Launching s u root stack M N' (n + ph.pages)) := by
  have hsame : ∀ {u : Machine} {N' : Finset Nat} {n' : Nat}, Launching s u root stack M N' n' →
      phdrAt u.mem a = ph := fun hu =>
    (phdrAt_congr fun k hk => hu.untouched hs (ha k hk)).trans hph
  unfold AcornOS.loadSegmentAt
  rw [hsame h]
  refine Ensures.bind (h.mapPagesOf hlow hM) ?_
  rintro u ⟨N', hu⟩
  dsimp only
  rw [hsame hu]
  have hfilled := hu.fillRange (some (add64 file ph.offset)) hlow.2
  rw [hsame hfilled]
  exact ensures_ok.mpr ⟨N', hfilled.fillRange none hlow.bss_add_le⟩

end Segment

/-! ## 3. `elf_load` -/

/-- Where the last of the first `k` segments ends, at a page boundary. -/
def imageEnd (m : Memory) (file : Nat) : Nat → Nat
  | 0 => 0
  | k + 1 => if IsLoad m file k then max (imageEnd m file k) (segment m file k).stop
    else imageEnd m file k

/-- `LaunchedUpTo s root stack file k x`: after `k` rounds of the loop over the program headers `heap_start`
and the machine are `x`. -/
structure LaunchedUpTo (s : Machine) (root stack file k : Nat) (x : Nat × Machine) : Prop where
  launching : ∃ N, Launching s x.2 root stack {v | v < x.1} N
    (roundsUpTo s.mem file (min k (elfPhnum s.mem file)))
  end_eq : x.1 = imageEnd s.mem file (min k (elfPhnum s.mem file))
  aligned : x.1 % pageSize = 0
  low : x.1 ≤ 2 ^ 47

theorem HeadersUntouched.phnum_eq {m : Memory} (h : HeadersUntouched s root stack file)
    (hm : ∀ a, Untouched s root stack a → m a = s.mem a) : elfPhnum m file = elfPhnum s.mem file := by
  obtain ⟨g, k, heq, hk, -⟩ := h.header 60 (by decide)
  have hend := frameAddr_add_le g
  have hlt : file + 60 < 2 ^ 64 := by omega
  unfold elfPhnum
  rw [add64_eq hlt]
  refine loadLe_congr fun k hk => ?_
  rw [Nat.add_assoc]
  exact hm _ (h.header (60 + k) (by omega))

/-- A round of the loop over the program headers. -/
theorem LaunchedUpTo.header {x : Nat × Machine} {i : Nat} (h : LaunchedUpTo s root stack file i x)
    (hs : s.Wf)
    (hheaders : HeadersUntouched s root stack file) (hlow : SegmentsLow s.mem file) :
    Ensures (loadHeader 0 (frameAddr root) file (add64 file (elfPhoff s.mem file)) i x)
      (fun _ => s.pmm.freePages.card < 4 * roundsUpTo s.mem file (elfPhnum s.mem file))
      (LaunchedUpTo s root stack file (i + 1)) := by
  obtain ⟨N, hN⟩ := h.launching
  have hmem : ∀ a, Untouched s root stack a → x.2.mem a = s.mem a := fun a => hN.untouched hs
  have hend := h.end_eq
  unfold loadHeader
  dsimp only
  rw [hheaders.phnum_eq hmem]
  by_cases hi : i < elfPhnum s.mem file
  · have ha := hheaders.table i hi
    have hph : phdrAt x.2.mem (add64 (add64 file (elfPhoff s.mem file)) (sizeofPhdr * i)) =
        segment s.mem file i := phdrAt_congr fun k hk => hmem _ (ha k hk)
    rw [Nat.min_eq_left hi.le] at hend hN
    rw [hph]
    by_cases hload : IsLoad s.mem file i
    · have hseg := hlow i hi hload
      obtain ⟨-, hstop, hmod⟩ := hseg.stop_spec
      have hmono : Launching s x.2 root stack {v | v < max x.1 (segment s.mem file i).stop} N
          (roundsUpTo s.mem file i) := hN.mono fun v (hv : v < x.1) => lt_max_of_lt_left hv
      have hrounds : roundsUpTo s.mem file (i + 1) =
          roundsUpTo s.mem file i + (segment s.mem file i).pages := by
        rw [roundsUpTo, if_pos hload]
      have hsegment : phdrAt s.mem (phdrAddr s.mem file i) = segment s.mem file i := rfl
      rw [if_pos ⟨hi, hload⟩]
      refine Ensures.bind ((hmono.loadSegmentAt hs ha hsegment hseg fun v hv =>
        lt_max_of_lt_right hv).mono (fun _ he => ?_) fun u hu => hu) ?_
      · rw [← hrounds] at he
        exact he.trans_le (Nat.mul_le_mul_left 4 (roundsUpTo_mono s.mem file hi))
      intro u hu
      refine ensures_ok.mpr ⟨?_, ?_, ?_, max_le h.low hstop⟩
      · rw [Nat.min_eq_left hi, hrounds]
        exact hu
      · rw [Nat.min_eq_left hi, imageEnd, if_pos hload, hend]
      · dsimp only
        rcases max_choice x.1 (segment s.mem file i).stop with heq | heq <;> rw [heq]
        · exact h.aligned
        · exact hmod
    · rw [if_neg fun hc => hload hc.2]
      refine ensures_ok.mpr ⟨⟨N, ?_⟩, ?_, h.aligned, h.low⟩
      · rw [Nat.min_eq_left hi, roundsUpTo, if_neg hload]
        exact hN
      · rw [Nat.min_eq_left hi, imageEnd, if_neg hload, hend]
  · -- the loop has ended
    rw [if_neg fun hc => hi hc.1]
    rw [Nat.min_eq_right (by omega)] at hend hN
    refine ensures_ok.mpr ⟨⟨N, ?_⟩, ?_, h.aligned, h.low⟩ <;> rw [Nat.min_eq_right (by omega)]
    · exact hN
    · exact hend

/-- **The loop over the program headers.** -/
theorem Launch.loadSegments (h : Launch s p root stack) (hheaders : HeadersUntouched s root stack file)
    (hlow : SegmentsLow s.mem file) :
    Ensures (loadSegments 0 (frameAddr root) file s)
      (fun _ => s.pmm.freePages.card < 4 * roundsUpTo s.mem file (elfPhnum s.mem file))
      (LaunchedUpTo s root stack file uint16Max) := by
  refine forRange_invariant (I := fun k x => LaunchedUpTo s root stack file k x)
    ⟨⟨∅, ?_⟩, ?_, rfl, Nat.zero_le _⟩ fun _ _ _ hx => hx.header h.wf hheaders hlow
  · rw [Nat.zero_min]
    exact h.launching.mono (Set.empty_subset _)
  · rw [Nat.zero_min, imageEnd]

/-- What `build_argv_stack` writes is in the stack's page. -/
theorem Launching.buildArgvStack (h : Launching s t root stack M N n)
    (hpres : present (pte t.mem root userStackPage) = true) (argv : Option (List (List (BitVec 8)))) :
    Launching s ⟨(buildArgvStack 0 (frameAddr root) userStackPage argv t).2, t.pmm⟩ root stack M N n ∧
      ∀ v, pte (buildArgvStack 0 (frameAddr root) userStackPage argv t).2 root v =
        pte t.mem root v := by
  have hlow : LowerHalf userStackPage := by
    unfold LowerHalf
    decide
  obtain ⟨hused, hnot⟩ := h.space.used _ hlow hpres
  have hpage : physicalToVirtual (getPhysicalOr 0 t (frameAddr root) userStackPage) =
      frameAddr (frame (pte t.mem root userStackPage)) := by
    have hget : getPhysicalOr 0 t (frameAddr root) userStackPage = _ := h.space.getPhysicalIn_eq hlow
    have hzero : userStackPage % pageSize = 0 := by decide
    rw [hget, if_pos hpres, hzero, Nat.add_zero, physicalToVirtual_page]
  cases argv with
  | none => exact ⟨h, fun _ => rfl⟩
  | some args =>
    rw [AcornOS.buildArgvStack]
    dsimp only
    rw [hpage]
    split
    · exact ⟨h, fun _ => rfl⟩
    · exact h.write (onlyIn_placeArgv (h.space.wf.lt_of_used hused) args t.mem)
        (Or.inr (h.mapped _ hlow hpres).1) hnot

/-- **The part after the segments.** -/
theorem Launching.loadStack {heapStart : Nat} (h : Launching s t root stack {v | v < heapStart} N n)
    (hpre : Launch s p root stack) (argv : Option (List (List (BitVec 8)))) :
    Ensures (loadStack 0 file p argv heapStart t) (fun _ => s.pmm.freePages.card < 4 * (n + 1))
      (fun r => (∃ argc addr, r.2.1 = loadedProcess p heapStart argc addr) ∧
        present (pte r.2.2.mem root userStackPage) = true ∧
        ∃ N, Launching s r.2.2 root stack
          ({v | v < heapStart} ∪ {v | v / pageSize = userStackPage / pageSize}) N (n + 1)) := by
  have hlow : LowerHalf userStackPage := by
    unfold LowerHalf
    decide
  have hmono : Launching s t root stack
      ({v | v < heapStart} ∪ {v | v / pageSize = userStackPage / pageSize}) N n :=
    h.mono Set.subset_union_left
  have hmap := hmono.mapZeroed (pagePresent + pageWritable + pageUser) hlow (by decide)
    fun v hv => Or.inr hv
  unfold AcornOS.loadStack
  rw [hpre.pageDir, hpre.stackTop]
  refine Ensures.bind hmap ?_
  rintro u ⟨⟨N', hu⟩, hpres⟩
  obtain ⟨hargv, hpte⟩ := hu.buildArgvStack hpres argv
  generalize AcornOS.buildArgvStack 0 (frameAddr root) userStackPage argv u = r at *
  obtain ⟨args, m⟩ := r
  dsimp only at hargv hpte ⊢
  have hstack : stack ∉ root :: AcornOS.tables m root := by
    intro hmem
    rcases hargv.tables_cases hmem with hmem | hmem
    · exact hpre.apart hmem
    · exact hargv.takes.notMem_of_test hpre.used.2 hmem
  have honly := onlyIn_entryFrame m (args.elim (userStackPage + pageSize - 8) Prod.snd) file
    (hpre.wf.lt_of_used hpre.used)
  obtain ⟨hdone, hpte'⟩ := hargv.write honly (Or.inl (Or.inr (Or.inl rfl))) hstack
  refine ensures_ok.mpr ⟨⟨_, _, rfl⟩, ?_, N', hdone⟩
  dsimp only
  rw [hpte', hpte]
  exact hpres

/-- What `elf_load` leaves behind: `q` is the process, `t` the machine. -/
structure Launched (t : Machine) (q : Process) (root : Nat) : Prop where
  space : UserSpace t root
  pageDir : q.pageDir = frameAddr root
  heapEnd : q.heapEnd = q.heapStart
  aligned : q.heapStart % pageSize = 0
  low : q.heapStart ≤ 2 ^ 47
  stackPage : present (pte t.mem root userStackPage) = true
  below : ∀ v, LowerHalf v → present (pte t.mem root v) = true →
    v < q.heapStart ∨ v / pageSize = userStackPage / pageSize

/-- **`elf_load` of an image that it accepts**, with its segments in the lower half.  It fails only for want
of pages. -/
theorem elfLoad_space (argv : Option (List (List (BitVec 8)))) (hpre : Launch s p root stack)
    (hok : elfHeaderOk s.mem file = true) (hheaders : HeadersUntouched s root stack file)
    (hlow : SegmentsLow s.mem file) :
    Ensures (elfLoad s file p argv)
      (fun _ => s.pmm.freePages.card < 4 * (roundsUpTo s.mem file (elfPhnum s.mem file) + 1))
      (fun r => Launched r.2.2 r.2.1 root ∧
        r.2.1.heapStart = imageEnd s.mem file (elfPhnum s.mem file) ∧
        s.pmm.freePages.card ≤ r.2.2.pmm.freePages.card +
          4 * (roundsUpTo s.mem file (elfPhnum s.mem file) + 1)) := by
  unfold elfLoad elfLoadOr
  rw [if_pos hok, hpre.pageDir]
  refine Ensures.bind ((hpre.loadSegments hheaders hlow).mono (fun _ he => by omega) fun x hx => hx) ?_
  intro x hx
  obtain ⟨N, hN⟩ := hx.launching
  have hend := hx.end_eq
  rw [Nat.min_eq_right (elfPhnum_le s.mem file)] at hN hend
  refine (hN.loadStack hpre argv).mono (fun _ he => he) ?_
  rintro ⟨entry, q, t⟩ ⟨⟨argc, addr, rfl⟩, hpres, N', hdone⟩
  have hcard := hdone.takes.card_add
  have hfew := hdone.few
  exact ⟨⟨hdone.space, hpre.pageDir, rfl, hx.aligned, hx.low, hpres, fun v hv hp =>
    (hdone.mapped v hv hp).2⟩, hend, by omega⟩

end Steps

/-! ### An image in frame 3 -/

section Image

variable (image : List (BitVec 8))

theorem entry_imageMachine {i : Nat} (hi : i < 512) : entry (imageMachine image).mem 1 i = 0 := by
  have h3 : frameAddr 1 + 4096 ≤ frameAddr 3 := by decide +kernel
  exact entry_blank (fun k hk => if_neg (by omega)) hi

theorem tables_imageMachine : tables (imageMachine image).mem 1 = [] := by
  rw [tables, tableNodes, nodes_eq_nil fun i hi => tableKids_blank (entry_imageMachine image hi)]
  rfl

theorem launch_imageMachine : Launch (imageMachine image) (pcbWithPages 2 1) 1 2 := by
  refine ⟨(imageMachine_pre image).wf, ⟨?_, ?_⟩, ?_, fun i hi => ?_, rfl, rfl, used_eightUsed (by decide),
    ?_⟩
  · rw [tables_imageMachine]
    exact List.nodup_singleton 1
  · rw [tables_imageMachine]
    intro q hq
    rw [List.mem_singleton.mp hq]
    exact used_eightUsed (by decide)
  · rw [tables_imageMachine]
    decide
  · rw [entry_imageMachine image (hi.trans (by decide))]
    rfl
  · rw [tables_imageMachine]
    decide

variable {image}

theorem headersUntouched_imageMachine
    (htable : ∀ i < elfPhnum (imageMachine image).mem (frameAddr 3),
      phdrAddr (imageMachine image).mem (frameAddr 3) i = frameAddr 3 + (64 + 56 * i) ∧ i < 64) :
    HeadersUntouched (imageMachine image) 1 2 (frameAddr 3) := by
  have huntouched : ∀ k < 4096, Untouched (imageMachine image) 1 2 (frameAddr 3 + k) := by
    intro k hk
    refine ⟨3, k, rfl, hk, used_eightUsed (by decide), ?_⟩
    unfold Touched
    rw [tables_imageMachine]
    decide
  refine ⟨fun k hk => huntouched k (by omega), fun i hi k hk => ?_⟩
  obtain ⟨haddr, hlt⟩ := htable i hi
  rw [haddr, Nat.add_assoc]
  exact huntouched _ (by unfold sizeofPhdr at hk; omega)

end Image

end AcornOS
