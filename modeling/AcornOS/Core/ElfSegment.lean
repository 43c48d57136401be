/-
# Loading one segment

`ElfImage.lean` and `ElfSpace.lean` follow whole images into new directories.  Here it is ONE round of the
loop over the program headers, and any directory that has nothing at the segment's pages: it may have
pages elsewhere, also shared or huge ones, and in both halves.

* `PagesMapped`: the loop over pages, as far as it has got.
* `Painted`: what is in these pages while the two loops over bytes work.  They cut their ranges at page ends,
  each from its own start; a byte is put where the page table says (`Painted.dst_eq`).
* **`segment_loaded`**: the pages, the file's bytes in them and zeroes around these, for EVERY alignment of
  the start, of the file's end and of the segment's end.  Nothing else changes its place.
-/
import AcornOS.Core.ElfSpace

namespace AcornOS

open Lib

/-! ## 1. The pages of a segment -/

/-- The pages that a segment touches, from its start rounded down to its end rounded up. -/
def Phdr.InPages (ph : Phdr) (v : Nat) : Prop :=
  ph.vaddr / pageSize * pageSize ≤ v ∧ v < (ph.vaddr + ph.memsz + 0xFFF) / pageSize * pageSize

/-- A PT_LOAD header of the lower half. -/
structure Phdr.Loadable (ph : Phdr) : Prop where
  type : ph.type = ptLoad
  size : ph.filesz ≤ ph.memsz
  low : ph.vaddr + ph.memsz + 0xFFF < 2 ^ 47

/-- An address in a page that is in use, but not for the tables of the directory. -/
def BesideTables (s : Machine) (root a : Nat) : Prop :=
  ∃ f k, a = frameAddr f + k ∧ k < 4096 ∧ s.pmm.Used f ∧ f ∉ root :: tables s.mem root

/-- Room for a segment in a directory: nothing is mapped at its pages. -/
structure RoomFor (s : Machine) (root : Nat) (ph : Phdr) : Prop where
  wf : s.Wf
  tree : TableTree s root
  loadable : ph.Loadable
  unmapped : ∀ v, ph.InPages v → translate s.mem root v = none

namespace Phdr.Loadable

variable {ph : Phdr} (h : ph.Loadable)
include h

theorem stop_eq : ph.stop = (ph.vaddr + ph.memsz + 0xFFF) / pageSize * pageSize := by
  have := h.low
  unfold Phdr.stop pageCeil
  rw [@add64_eq ph.vaddr ph.memsz (by omega), add64_eq (by omega)]

/-- The rounds of the loop over pages. -/
theorem inPages_iff (v : Nat) : ph.InPages v ↔
    ph.vaddr / pageSize ≤ v / pageSize ∧ v / pageSize < ph.vaddr / pageSize + ph.pages := by
  unfold Phdr.InPages Phdr.pages Phdr.start
  rw [h.stop_eq]
  unfold pageSize
  omega

theorem lowerHalf {v : Nat} (hv : ph.InPages v) : LowerHalf v := by
  have := h.low
  unfold LowerHalf
  unfold Phdr.InPages pageSize at hv
  omega

omit h in
/-- The bytes of the segment are in its pages. -/
theorem inPages {v : Nat} (hlo : ph.vaddr ≤ v) (hhi : v < ph.vaddr + ph.memsz) : ph.InPages v := by
  unfold Phdr.InPages pageSize
  omega

theorem bss_eq : ph.bss = ph.vaddr + ph.filesz ∧ ph.bssSize = ph.memsz - ph.filesz := by
  have hsize := h.size
  have hlow := h.low
  unfold Phdr.bssSize Phdr.bss
  rw [@add64_eq ph.vaddr ph.filesz (by omega), @add64_eq ph.vaddr ph.memsz (by omega)]
  omega

end Phdr.Loadable

/-- The permission bits of a segment's page. -/
theorem Phdr.permissions_pageFlags (ph : Phdr) :
    permissions ph.pageFlags = (decide (ph.flags / 2 % 2 = 1), true) := by
  unfold permissions writable user Phdr.pageFlags pagePresent pageUser pageWritable
  split
  · rename_i hw
    rw [hw]
    rfl
  · rename_i hw
    rw [decide_eq_false hw]
    rfl

/-! ## 2. The loop over pages -/

/-- `PagesMapped s t root flags a n fr N`: from `s` to `t` the `n` pages from number `a` on were mapped to the
frames `fr` and zeroed, and the frames `N` were taken for that. -/
structure PagesMapped (s t : Machine) (root flags a n : Nat) (fr : Nat → Nat) (N : Finset Nat) : Prop where
  takes : Takes s.pmm t.pmm N
  few : N.card ≤ 4 * n
  only : OnlyIn s.mem t.mem ({q | q ∈ root :: tables s.mem root} ∪ N)
  tree : TableTree t root
  tables : ∀ q ∈ tables t.mem root, q ∈ tables s.mem root ∨ q ∈ N
  plain : ∀ w, ¬ HugeOnPath s.mem root w → ¬ HugeOnPath t.mem root w
  fresh : ∀ p, a ≤ p → p < a + n → fr p ∈ N ∧ fr p ∉ root :: AcornOS.tables t.mem root
  inj : ∀ p q, a ≤ p → p < a + n → a ≤ q → q < a + n → fr p = fr q → p = q
  zero : ∀ p, a ≤ p → p < a + n → ∀ k < 4096, t.mem (frameAddr (fr p) + k) = 0
  here : ∀ v, a ≤ pageNo v → pageNo v < a + n →
    pte t.mem root v = pageEntry (fr (pageNo v) * pageSize) flags
  others : ∀ w, ¬ (a ≤ pageNo w ∧ pageNo w < a + n) → translate t.mem root w = translate s.mem root w

section Mapping

variable {s t u : Machine} {root flags a n f va : Nat} {fr : Nat → Nat} {N N' : Finset Nat}

theorem PagesMapped.refl (flags a : Nat) (fr : Nat → Nat) (h : TableTree s root) :
    PagesMapped s s root flags a 0 fr ∅ where
  takes := Takes.refl _
  few := Nat.zero_le _
  only := OnlyIn.refl _ _
  tree := h
  tables _ hq := Or.inl hq
  plain _ hw := hw
  fresh p _ _ := by omega
  inj p _ _ _ _ _ _ := by omega
  zero p _ _ := by omega
  here v _ _ := by omega
  others _ _ := rfl

theorem path_eq_iff_pageNo {v w : Nat} : path v = path w ↔ pageNo v = pageNo w := by
  rw [path_eq_iff]
  unfold pageNo pageSize
  omega

/-- **A round**: the next page. -/
theorem PagesMapped.next (h : PagesMapped s t root flags a n fr N) (hs : s.Wf)
    (hpage : pageNo va = a + n) (hnew : ZeroedPage t u root va flags f N') :
    PagesMapped s u root flags a (n + 1) (Function.update fr (a + n) f) (N ∪ N') := by
  have hold : ∀ p, p < a + n → Function.update fr (a + n) f p = fr p := fun p hp =>
    Function.update_of_ne (by omega) _ _
  have hlast : Function.update fr (a + n) f (a + n) = f := Function.update_self _ _ _
  have hused : ∀ q ∈ N, t.pmm.Used q := fun q hq => h.takes.used_of_mem hq
  have hnot : ∀ q ∈ N, q ∉ N' := fun q hq => hnew.takes.notMem_of_test (hused q hq).2
  have hf : f ∈ N ∪ N' := Finset.mem_union_right _ hnew.mem
  have hpath : ∀ {v}, pageNo v ≠ a + n → path v ≠ path va := fun hv heq =>
    hv ((path_eq_iff_pageNo.mp heq).trans hpage)
  -- a page is one of the old ones, or it is the new one
  have hcases : ∀ p, p < a + (n + 1) → p < a + n ∨ p = a + n := fun p hp => by omega
  refine ⟨h.takes.trans hnew.takes, ?_, h.only.grow hnew.only fun _ => root_or_mem h.tables, hnew.tree,
    fun q hq => ?_, fun w hw => hnew.not_hugeOnPath (h.plain w hw), fun p hlo hhi => ?_,
    fun p q hp hp' hq hq' heq => ?_, fun p hlo hhi k hk => ?_, fun v hlo hhi => ?_, fun w hw => ?_⟩
  · have := Finset.card_union_le N N'
    have := h.few
    have := hnew.few
    omega
  · rcases hnew.tables q hq with hq | hq
    · exact (h.tables q hq).imp id (Finset.mem_union_left _)
    · exact Or.inr (Finset.mem_union_right _ hq)
  · rcases hcases p hhi with hp | rfl
    · obtain ⟨hmem, htab⟩ := h.fresh p hlo hp
      rw [hold p hp]
      exact ⟨Finset.mem_union_left _ hmem, hnew.not_table (hused _ hmem) htab⟩
    · rw [hlast]
      exact ⟨hf, hnew.leaf⟩
  · have hne : ∀ p, a ≤ p → p < a + n → fr p ≠ f := by
      rintro p hlo hhi rfl
      exact hnot _ (h.fresh p hlo hhi).1 hnew.mem
    rcases hcases p hp' with hp' | rfl <;> rcases hcases q hq' with hq' | rfl
    · rw [hold p hp', hold q hq'] at heq
      exact h.inj p q hp hp' hq hq' heq
    · rw [hold p hp', hlast] at heq
      exact absurd heq (hne p hp hp')
    · rw [hold q hq', hlast] at heq
      exact absurd heq.symm (hne q hq hq')
    · rfl
  · rcases hcases p hhi with hp | rfl
    · obtain ⟨hmem, htab⟩ := h.fresh p hlo hp
      rw [hold p hp, hnew.only _ (hs.lt_of_free (h.takes.free hmem)) ?_ k hk]
      · exact h.zero p hlo hp k hk
      · rintro (hq | hq)
        · exact htab hq
        · exact hnot _ hmem hq
    · rw [hlast]
      exact hnew.zero k hk
  · rcases hcases _ hhi with hv | hv
    · rw [hold _ hv, hnew.others v (hpath hv.ne)]
      exact h.here v hlo hv
    · rw [hv, hlast, ← hnew.here]
      exact pte_congr (path_eq_iff_pageNo.mpr (hv.trans hpage.symm)) root
  · exact (hnew.translate w (hpath fun hw' => hw (by omega))).trans
      (h.others w fun hw' => hw ⟨hw'.1, by omega⟩)

/-- **The loop over the pages of a segment.** -/
theorem RoomFor.mapPagesOf {ph : Phdr} (hs : RoomFor s root ph) :
    Ensures (mapPagesOf (frameAddr root) ph s) (fun _ => s.pmm.freePages.card < 4 * ph.pages)
      (fun t => ∃ fr N,
        PagesMapped s t root ph.pageFlags (ph.vaddr / pageSize) ph.pages fr N) := by
  refine @forRange_invariant Halt Machine _ _ (fun i t => ∃ fr N,
    PagesMapped s t root ph.pageFlags (ph.vaddr / pageSize) i fr N) ph.pages s
    ⟨fun _ => 0, ∅, .refl _ _ _ hs.tree⟩ ?_
  rintro i t hi ⟨fr, N, ht⟩
  have hpage : (ph.start + i * pageSize) / pageSize = ph.vaddr / pageSize + i := by
    unfold Phdr.start
    rw [← Nat.add_mul, Nat.mul_div_cancel _ (by decide)]
  have hin : ph.InPages (ph.start + i * pageSize) := (hs.loadable.inPages_iff _).mpr (by omega)
  have hno := (pageNo_of_lower (hs.loadable.lowerHalf hin)).trans hpage
  have hcard := ht.takes.card_add
  have hfew := ht.few
  refine (ht.tree.mapZeroed ph.pageFlags (hs.wf.of_takes ht.takes)
    (ht.plain _ (not_hugeOnPath_of_unmapped (hs.unmapped _ hin))) ph.pageFlags_mod).mono
    (fun _ he => by omega) ?_
  rintro u ⟨f, N', hu⟩
  exact ⟨_, _, ht.next hs.wf hno hu⟩

end Mapping

/-! ## 3. The loops over bytes -/

/-- Where the byte of an address is. -/
def placeOf (fr : Nat → Nat) (v : Nat) : Nat := frameAddr (fr (v / pageSize)) + v % pageSize

/-- `Placed s u root ph fr N`: the pages of the segment are mapped in `u`. -/
structure Placed (s u : Machine) (root : Nat) (ph : Phdr) (fr : Nat → Nat) (N : Finset Nat) : Prop extends
    PagesMapped s u root ph.pageFlags (ph.vaddr / pageSize) ph.pages fr N where
  room : RoomFor s root ph

/-- `Painted u t ph fr bytes`: in `t` they hold `bytes`, and nothing else was written to. -/
structure Painted (u t : Machine) (ph : Phdr) (fr : Nat → Nat) (bytes : Nat → BitVec 8) : Prop where
  pmm : t.pmm = u.pmm
  only : OnlyIn u.mem t.mem {q | ∃ v, ph.InPages v ∧ q = fr (v / pageSize)}
  bytes : ∀ v, ph.InPages v → t.mem (placeOf fr v) = bytes v

section Filling

variable {s t u : Machine} {root va k v w a : Nat} {ph : Phdr} {fr : Nat → Nat} {N : Finset Nat}
  {bytes : Nat → BitVec 8}

theorem Painted.congr {bytes' : Nat → BitVec 8} (h : Painted u t ph fr bytes)
    (heq : ∀ v, ph.InPages v → bytes v = bytes' v) : Painted u t ph fr bytes' :=
  ⟨h.pmm, h.only, fun v hv => (h.bytes v hv).trans (heq v hv)⟩

/-- The number of one of the pages. -/
theorem Placed.number (h : Placed s u root ph fr N) (hv : ph.InPages v) :
    ph.vaddr / pageSize ≤ v / pageSize ∧ v / pageSize < ph.vaddr / pageSize + ph.pages :=
  (h.room.loadable.inPages_iff v).mp hv

theorem Placed.frame (h : Placed s u root ph fr N) (hv : ph.InPages v) :
    fr (v / pageSize) ∈ N ∧ fr (v / pageSize) ∉ root :: tables u.mem root :=
  h.fresh _ (h.number hv).1 (h.number hv).2

theorem Placed.lt (h : Placed s u root ph fr N) (hv : ph.InPages v) :
    fr (v / pageSize) < 2 ^ 40 :=
  h.room.wf.lt_of_free (h.takes.free (h.frame hv).1)

/-- Different pages are in different frames. -/
theorem Placed.apart (h : Placed s u root ph fr N) (hv : ph.InPages v)
    (hw : ph.InPages w) (hne : v / pageSize ≠ w / pageSize) :
    frameAddr (fr (v / pageSize)) + 4096 ≤ frameAddr (fr (w / pageSize)) ∨
      frameAddr (fr (w / pageSize)) + 4096 ≤ frameAddr (fr (v / pageSize)) := by
  obtain ⟨hvlo, hvhi⟩ := h.number hv
  obtain ⟨hwlo, hwhi⟩ := h.number hw
  exact frameAddr_apart (h.lt hv) (h.lt hw) fun heq =>
    hne (h.inj _ _ hvlo hvhi hwlo hwhi heq)

/-- A stretch of a page is a stretch of its frame, and no other byte is there. -/
theorem Placed.mem_stretch (h : Placed s u root ph fr N) (hv : ph.InPages v) (hw : ph.InPages w)
    {n : Nat} (hn : w % pageSize + n ≤ pageSize) :
    (w ≤ v ∧ v < w + n → placeOf fr v = placeOf fr w + (v - w)) ∧
      (¬ (w ≤ v ∧ v < w + n) → placeOf fr v < placeOf fr w ∨ placeOf fr w + n ≤ placeOf fr v) := by
  unfold placeOf
  by_cases hpage : v / pageSize = w / pageSize
  · rw [hpage]
    unfold pageSize at *
    omega
  · have := h.apart hv hw hpage
    unfold pageSize at *
    omega

/-- The bytes of the image are in other frames. -/
theorem Placed.image_apart (h : Placed s u root ph fr N) (hv : ph.InPages v) (ha : BesideTables s root a) :
    a < frameAddr (fr (v / pageSize)) ∨ frameAddr (fr (v / pageSize)) + 4096 ≤ a := by
  obtain ⟨f, k, rfl, hk, hf, -⟩ := ha
  have hne : f ≠ fr (v / pageSize) := by
    rintro rfl
    exact h.takes.notMem_of_test hf.2 (h.frame hv).1
  have := frameAddr_apart (h.room.wf.lt_of_used hf) (h.lt hv) hne
  omega

/-- They stay as they are. -/
theorem Painted.image_eq (hp : Painted u t ph fr bytes) (h : Placed s u root ph fr N)
    (ha : BesideTables s root a) : t.mem a = s.mem a := by
  obtain ⟨f, k, rfl, hk, hf, hnot⟩ := ha
  have hN := h.takes.notMem_of_test hf.2
  rw [hp.only f (h.room.wf.lt_of_used hf) ?_ k hk, h.only f (h.room.wf.lt_of_used hf) ?_ k hk]
  · rintro (hmem | hmem)
    · exact hnot hmem
    · exact hN hmem
  · rintro ⟨v, hv, rfl⟩
    exact hN (h.frame hv).1

theorem Painted.sameTables (hp : Painted u t ph fr bytes) (h : Placed s u root ph fr N) :
    SameTables u.mem t.mem root := by
  refine .of_onlyIn h.tree (h.room.wf.of_takes h.takes) hp.only ?_
  rintro q hq ⟨v, hv, rfl⟩
  exact (h.frame hv).2 hq

theorem Painted.pte_eq (hp : Painted u t ph fr bytes) (h : Placed s u root ph fr N) (hv : ph.InPages v) :
    pte t.mem root v = pageEntry (fr (v / pageSize) * pageSize) ph.pageFlags := by
  have hno := pageNo_of_lower (h.room.loadable.lowerHalf hv)
  obtain ⟨hlo, hhi⟩ := h.number hv
  rw [← hno] at hlo hhi ⊢
  exact ((hp.sameTables h).pte_eq v).trans (h.here v hlo hhi)

theorem Painted.plain (hp : Painted u t ph fr bytes) (h : Placed s u root ph fr N)
    (hv : ph.InPages v) : ¬ HugeOnPath t.mem root v :=
  not_hugeOnPath_iff.mpr ((hp.sameTables h).onPath
    (not_hugeOnPath_iff.mp (h.plain v (not_hugeOnPath_of_unmapped (h.room.unmapped v hv)))))

/-- **The byte of an address** is put where its page table says. -/
theorem Painted.dst_eq (hp : Painted u t ph fr bytes) (h : Placed s u root ph fr N) (hv : ph.InPages v) :
    add64 (physicalToVirtual (getPhysicalOr 0 t (frameAddr root) (v / pageSize * pageSize)))
      (v % pageSize) = placeOf fr v := by
  have hbase : v / pageSize * pageSize / pageSize = v / pageSize := Nat.mul_div_cancel _ (by decide)
  have hin : ph.InPages (v / pageSize * pageSize) := by
    rw [h.room.loadable.inPages_iff, hbase, ← h.room.loadable.inPages_iff]
    exact hv
  obtain ⟨-, hpres, -, hframe⟩ := pageEntry_spec (h.lt hv) ph.pageFlags_mod
  have hget : getPhysicalOr 0 t (frameAddr root) (v / pageSize * pageSize) = _ :=
    getPhysicalIn_eq (hp.plain h hin)
  have hend := frameAddr_add_le (fr (v / pageSize))
  have hoff : v % pageSize < 4096 := Nat.mod_lt _ (by decide)
  rw [hget, hp.pte_eq h hin, hbase, if_pos hpres, hframe, Nat.mul_mod_left, Nat.add_zero,
    physicalToVirtual_page, add64_eq (by omega), placeOf]

/-- One chunk of a range, within its page. -/
theorem Painted.fillChunk (hp : Painted u t ph fr bytes) (h : Placed s u root ph fr N) (src : Option Nat)
    (hva : ph.InPages va) (hk : va % pageSize + k ≤ pageSize)
    (hsrc : ∀ a, src = some a → ∀ j < k, BesideTables s root (add64 a j)) :
    Painted u { t with mem := fillBytes t.mem (add64 (physicalToVirtual (getPhysicalOr 0 t (frameAddr root)
      (va / pageSize * pageSize))) (va % pageSize)) src k } ph fr fun v =>
        if va ≤ v ∧ v < va + k then src.elim 0 fun a => s.mem (add64 a (v - va)) else bytes v := by
  have hlt := h.lt hva
  have hfit := frameAddr_add_le (fr (va / pageSize))
  have hchunk : va % pageSize + k ≤ 4096 := hk
  have hplace : placeOf fr va = frameAddr (fr (va / pageSize)) + va % pageSize := rfl
  have honly := @onlyIn_fillBytes t.mem _ _ k src hlt hchunk
  obtain ⟨hout, hbytes⟩ := @fillBytes_spec t.mem (placeOf fr va) k src (by omega)
  have hapart : ∀ a, src = some a → ∀ j < k,
      add64 a j < placeOf fr va ∨ placeOf fr va + k ≤ add64 a j := by
    intro a ha j hj
    have := h.image_apart hva (hsrc a ha j hj)
    omega
  replace hbytes := hbytes hapart
  rw [hp.dst_eq h hva]
  rw [← hplace] at honly
  generalize fillBytes t.mem (placeOf fr va) src k = m at *
  refine ⟨hp.pmm, hp.only.trans (honly.mono ?_), fun v hv => ?_⟩
  · rintro q rfl
    exact ⟨va, hva, rfl⟩
  · obtain ⟨hmem, hnotMem⟩ := h.mem_stretch hv hva hk
    dsimp only
    by_cases hnow : va ≤ v ∧ v < va + k
    · rw [hmem hnow, hbytes _ (by omega), if_pos hnow]
      cases src with
      | none => rfl
      | some a => exact hp.image_eq h (hsrc a rfl _ (by omega))
    · rw [hout _ (hnotMem hnow), hp.bytes v hv, if_neg hnow]

/-- **The loop over a range of addresses** puts the source there. -/
theorem Painted.fillRange (hp : Painted u t ph fr bytes) (h : Placed s u root ph fr N) (src : Option Nat)
    (hin : ∀ i < k, ph.InPages (va + i)) (hend : va + k < 2 ^ 64)
    (hsrc : ∀ a, src = some a → ∀ j < k, BesideTables s root (add64 a j)) :
    Painted u (fillRange 0 (frameAddr root) src va k t) ph fr fun v =>
      if va ≤ v ∧ v < va + k then src.elim 0 fun a => s.mem (add64 a (v - va)) else bytes v := by
  refine fillRange_invariant (I := fun i t => Painted u t ph fr fun v =>
    if va ≤ v ∧ v < va + i then src.elim 0 fun a => s.mem (add64 a (v - va)) else bytes v) hend ?_ ?_
  · refine hp.congr fun v _ => ?_
    rw [if_neg (by omega)]
  · intro i n t hpos hi hn ht
    have hsrc' : ∀ a', (src.map fun a => add64 a i) = some a' → ∀ j < n,
        BesideTables s root (add64 a' j) := by
      intro a' ha' j hj
      obtain ⟨a, ha, rfl⟩ := Option.map_eq_some_iff.mp ha'
      rw [add64_add64]
      exact hsrc a ha (i + j) (by omega)
    refine (ht.fillChunk h _ (hin i (by omega)) hn hsrc').congr fun v _ => ?_
    -- the chunk, or what the chunks before it have put there
    by_cases hnow : va + i ≤ v ∧ v < va + i + n
    · rw [if_pos hnow, if_pos (by omega)]
      cases src with
      | none => rfl
      | some a =>
        have hoff : i + (v - (va + i)) = v - va := by omega
        rw [Option.map_some, Option.elim_some, Option.elim_some, add64_add64, hoff]
    · rw [if_neg hnow]
      exact if_congr (by omega) rfl rfl

end Filling

/-! ## 4. The round -/

/-- Before the round for program header `i`: there is room, and the header and the file's bytes are where the
loader does not write. -/
structure SegmentPre (s : Machine) (root file pheaders i : Nat) (ph : Phdr) : Prop where
  room : RoomFor s root ph
  count : i < elfPhnum s.mem file
  header : phdrAt s.mem (add64 pheaders (sizeofPhdr * i)) = ph
  headerBytes : ∀ k < sizeofPhdr, BesideTables s root (add64 pheaders (sizeofPhdr * i) + k)
  fileBytes : ∀ j < ph.filesz, BesideTables s root (add64 file (ph.offset + j))

/-- After it, `fr` being the frame of each page. -/
structure SegmentLoaded (s t : Machine) (root file : Nat) (ph : Phdr) (fr : Nat → Nat) : Prop where
  tree : TableTree t root
  fresh : ∀ v, ph.InPages v → fr (v / pageSize) ∈ s.pmm.freePages ∧
    fr (v / pageSize) ∉ t.pmm.freePages ∧ fr (v / pageSize) ∉ root :: tables t.mem root
  distinct : ∀ v w, ph.InPages v → ph.InPages w → fr (v / pageSize) = fr (w / pageSize) →
    v / pageSize = w / pageSize
  mapped : ∀ v, ph.InPages v → ∃ bits, translate t.mem root v =
    some (.small (fr (v / pageSize)) (bits ++ [(decide (ph.flags / 2 % 2 = 1), true)]))
  file : ∀ i < ph.filesz,
    readByte t.mem root (ph.vaddr + i) = some (fileByte s.mem file (ph.offset + i))
  zero : ∀ v, ph.InPages v → ¬ (ph.vaddr ≤ v ∧ v < ph.vaddr + ph.filesz) →
    readByte t.mem root v = some 0
  others : ∀ w, ¬ ph.InPages (w % 2 ^ 48) → translate t.mem root w = translate s.mem root w
  only : OnlyIn s.mem t.mem {q | q ∈ root :: tables s.mem root ∨ q ∈ s.pmm.freePages}

section Round

variable {s t u : Machine} {root file pheaders i a v : Nat} {ph : Phdr} {fr : Nat → Nat} {N : Finset Nat}

/-- What belongs at an address of the segment's pages. -/
def Phdr.content (ph : Phdr) (m : Memory) (file v : Nat) : BitVec 8 :=
  if ph.vaddr ≤ v ∧ v < ph.vaddr + ph.filesz then fileByte m file (ph.offset + (v - ph.vaddr)) else 0

theorem Placed.painted (h : Placed s u root ph fr N) : Painted u u ph fr fun _ => 0 where
  pmm := rfl
  only := OnlyIn.refl _ _
  bytes v hv := h.zero _ (h.number hv).1 (h.number hv).2 _ (Nat.mod_lt _ (by decide))

/-- The loops over bytes, one after the other. -/
theorem Placed.fill (h : Placed s u root ph fr N)
    (hfile : ∀ j < ph.filesz, BesideTables s root (add64 file (ph.offset + j))) :
    ∃ t, fillRange 0 (frameAddr root) (some (add64 file ph.offset)) ph.vaddr ph.filesz u = t ∧
      (∃ bytes, Painted u t ph fr bytes) ∧
      Painted u (fillRange 0 (frameAddr root) none ph.bss ph.bssSize t) ph fr (ph.content s.mem file) := by
  have hsize := h.room.loadable.size
  have hlow := h.room.loadable.low
  obtain ⟨hbss, hbssSize⟩ := h.room.loadable.bss_eq
  have hcopied := h.painted.fillRange h (some (add64 file ph.offset))
    (k := ph.filesz) (fun i hi => Phdr.Loadable.inPages (Nat.le_add_right ph.vaddr i) (by omega))
    (by omega) fun a ha j hj => by
      rw [← Option.some.inj ha, add64_add64]
      exact hfile j hj
  refine ⟨_, rfl, ⟨_, hcopied⟩, ?_⟩
  rw [hbss, hbssSize]
  refine (hcopied.fillRange h none (fun i hi => Phdr.Loadable.inPages (by omega) (by omega)) (by omega)
    (fun a ha => nomatch ha)).congr fun v _ => ?_
  unfold Phdr.content
  by_cases hin : ph.vaddr ≤ v ∧ v < ph.vaddr + ph.filesz
  · rw [if_neg (by omega), if_pos hin, if_pos hin, Option.elim_some, add64_add64, fileByte]
  · rw [if_neg hin, if_neg hin]
    exact ite_self _

/-- The pages are read where they are mapped. -/
theorem Placed.loaded (h : Placed s u root ph fr N) (hp : Painted u t ph fr (ph.content s.mem file)) :
    SegmentLoaded s t root file ph fr := by
  have hsame := hp.sameTables h
  have hmapped : ∀ v, ph.InPages v → ∃ bits, translate t.mem root v =
      some (.small (fr (v / pageSize)) (bits ++ [(decide (ph.flags / 2 % 2 = 1), true)])) := by
    intro v hv
    obtain ⟨bits, heq, -, -⟩ := translate_eq_small (hp.plain h hv)
    obtain ⟨-, hpres, -, hframe⟩ := pageEntry_spec (h.lt hv) ph.pageFlags_mod
    rw [hp.pte_eq h hv, if_pos hpres, hframe, permissions_pageEntry, ph.permissions_pageFlags] at heq
    exact ⟨bits, heq⟩
  have hread : ∀ v, ph.InPages v → readByte t.mem root v = some (ph.content s.mem file v) := by
    intro v hv
    obtain ⟨bits, heq⟩ := hmapped v hv
    rw [readByte, heq, ← hp.bytes v hv]
    rfl
  refine ⟨⟨?_, ?_⟩, fun v hv => ⟨h.takes.free (h.frame hv).1, ?_, ?_⟩, fun v w hv hw heq => ?_,
    hmapped, fun i hi => ?_, fun v hv hout => ?_, fun w hw => ?_,
    OnlyIn.trans (h.only.mono ?_) (hp.only.mono ?_)⟩
  · rw [hsame.tables_eq]
    exact h.tree.nodup
  · rw [hsame.tables_eq, hp.pmm]
    exact h.tree.used
  · rw [hp.pmm]
    exact fun hfree => absurd (Pmm.mem_freePages.mp hfree).2
      (by rw [(h.takes.used_of_mem (h.frame hv).1).2]; decide)
  · rw [hsame.tables_eq]
    exact (h.frame hv).2
  · by_contra hne
    have := h.apart hv hw hne
    rw [heq] at this
    omega
  · have hsize := h.room.loadable.size
    rw [hread _ (Phdr.Loadable.inPages (Nat.le_add_right _ i) (by omega)), Phdr.content,
      if_pos (by omega), Nat.add_sub_cancel_left]
  · rw [hread v hv, Phdr.content, if_neg hout]
  · rw [hsame.translate_eq]
    exact h.others w fun hmem => hw ((h.room.loadable.inPages_iff _).mpr hmem)
  · rintro q (hq | hq)
    · exact Or.inl hq
    · exact Or.inr (h.takes.free hq)
  · rintro q ⟨v, hv, rfl⟩
    exact Or.inr (h.takes.free (h.frame hv).1)

/-- The three loops.  Each takes the header from memory again. -/
theorem SegmentPre.loadSegmentAt (h : SegmentPre s root file pheaders i ph) :
    Ensures (loadSegmentAt 0 (frameAddr root) file (add64 pheaders (sizeofPhdr * i)) s)
      (fun _ => s.pmm.freePages.card < 4 * ph.pages)
      (fun t => ∃ fr, SegmentLoaded s t root file ph fr) := by
  unfold AcornOS.loadSegmentAt
  rw [h.header]
  refine Ensures.bind h.room.mapPagesOf ?_
  rintro u ⟨fr, N, hu⟩
  have hplaced : Placed s u root ph fr N := ⟨hu, h.room⟩
  have hheader : ∀ {t : Machine} {bytes : Nat → BitVec 8}, Painted u t ph fr bytes →
      phdrAt t.mem (add64 pheaders (sizeofPhdr * i)) = ph := fun ht =>
    (phdrAt_congr fun k hk => ht.image_eq hplaced (h.headerBytes k hk)).trans h.header
  obtain ⟨t, ht, ⟨bytes, hcopied⟩, hdone⟩ := hplaced.fill h.fileBytes
  dsimp only
  rw [hheader hplaced.painted, ht, hheader hcopied]
  exact ensures_ok.mpr ⟨fr, hplaced.loaded hdone⟩

/-- **One round for a PT_LOAD header** in a directory with room for it.  It fails only for want of pages. -/
theorem segment_loaded (heapStart : Nat) (h : SegmentPre s root file pheaders i ph) :
    Ensures (loadHeader 0 (frameAddr root) file pheaders i (heapStart, s))
      (fun _ => s.pmm.freePages.card < 4 * ph.pages)
      (fun r => r.1 = max heapStart ph.stop ∧ ∃ fr, SegmentLoaded s r.2 root file ph fr) := by
  unfold loadHeader
  dsimp only
  rw [h.header, if_pos ⟨h.count, h.room.loadable.type⟩]
  exact Ensures.bind h.loadSegmentAt fun t ht => ensures_ok.mpr ⟨rfl, ht⟩

end Round

/-! ### The second segment of `sharedPage`, alone -/

/-- It starts in the middle of its page and is writable. -/
theorem segmentPre_sharedPage : SegmentPre (imageMachine sharedPage) 1 (frameAddr 3)
    (add64 (frameAddr 3) (elfPhoff (imageMachine sharedPage).mem (frameAddr 3))) 1
    ⟨1, 6, 177, 0x400800, 1, 1⟩ := by
  have hlaunch := launch_imageMachine sharedPage
  have hpage : ∀ k < 4096, BesideTables (imageMachine sharedPage) 1 (frameAddr 3 + k) := by
    intro k hk
    refine ⟨3, k, rfl, hk, used_eightUsed (by decide), ?_⟩
    rw [tables_imageMachine]
    decide
  have hloadable : Phdr.Loadable ⟨1, 6, 177, 0x400800, 1, 1⟩ := ⟨rfl, by decide, by decide⟩
  refine ⟨⟨hlaunch.wf, hlaunch.tree, hloadable, fun v hv => ?_⟩, by decide +kernel, by decide +kernel,
    fun k hk => ?_, fun j hj => ?_⟩
  · have hlow := hloadable.lowerHalf hv
    rw [hlaunch.space.translate_eq hlow, hlaunch.pte_eq hlow]
    rfl
  · have haddr : add64 (add64 (frameAddr 3) (elfPhoff (imageMachine sharedPage).mem (frameAddr 3)))
        (sizeofPhdr * 1) = frameAddr 3 + 120 := by decide +kernel
    rw [haddr, Nat.add_assoc]
    exact hpage _ (by unfold sizeofPhdr at hk; omega)
  · have haddr : add64 (frameAddr 3) (177 + 0) = frameAddr 3 + 177 := by decide +kernel
    obtain rfl : j = 0 := Nat.lt_one_iff.mp hj
    rw [haddr]
    exact hpage 177 (by decide)

theorem segment_loaded_shared_page : ∃ r, loadHeader 0 (frameAddr 1) (frameAddr 3)
      (add64 (frameAddr 3) (elfPhoff (imageMachine sharedPage).mem (frameAddr 3))) 1
      (0, imageMachine sharedPage) = .ok r ∧
    ∃ fr, SegmentLoaded (imageMachine sharedPage) r.2 1 (frameAddr 3)
      ⟨1, 6, 177, 0x400800, 1, 1⟩ fr := by
  obtain ⟨r, hr, -, hloaded⟩ := (segment_loaded 0 segmentPre_sharedPage).exists_ok
    fun _ => by decide +kernel
  exact ⟨r, hr, hloaded⟩

end AcornOS
