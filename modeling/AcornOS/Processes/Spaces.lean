/-
# The address space of a user process

`UserSpace s root` is what a program can rely on: its own half of the directory has no huge pages, the
tables on the way let it through, and its pages are used frames that are neither tables nor each other.
The kernel's half may have huge pages; only its tables have to be known.

* `TableTree.mapZeroed`: a new, zeroed page comes to a directory and every other translation stays, in BOTH
  halves (`ZeroedPage`).  A space stays a space (`mapZeroed_space`).
* `UserSpace.write`: what is written to anything but the tables does not matter.
-/
import AcornOS.Arch.MapLookup
import AcornOS.Processes.Pages

namespace AcornOS

open Lib

/-! ## 1. The invariant -/

/-- An entry that lets a program through, to read and to write. -/
def Passable (_ e : Nat) : Prop := permissions e = (true, true)

structure UserSpace (s : Machine) (root : Nat) : Prop where
  wf : s.Wf
  tree : TableTree s root
  zero : 0 ∉ root :: tables s.mem root
  plain : ∀ v, LowerHalf v → ¬ HugeOnPath s.mem root v
  passable : ∀ v, LowerHalf v → OnPath Passable s.mem root v
  used : ∀ v, LowerHalf v → present (pte s.mem root v) = true →
    s.pmm.Used (frame (pte s.mem root v)) ∧ frame (pte s.mem root v) ∉ root :: tables s.mem root
  inj : ∀ v w, LowerHalf v → LowerHalf w → present (pte s.mem root v) = true →
    present (pte s.mem root w) = true → frame (pte s.mem root v) = frame (pte s.mem root w) →
    v / pageSize = w / pageSize

/-- A program may read and write at `v`, and finds frame `f` there. -/
def UserMapped (m : Memory) (root v f : Nat) : Prop :=
  translate m root v = some (.small f (List.replicate 4 (true, true)))

section Space

variable {s : Machine} {m : Memory} {root v w : Nat}

/-- What the processor finds in the lower half. -/
theorem UserSpace.translate_eq (h : UserSpace s root) (hv : LowerHalf v) :
    translate s.mem root v = if present (pte s.mem root v) then
      some (.small (frame (pte s.mem root v))
        [(true, true), (true, true), (true, true), permissions (pte s.mem root v)]) else none :=
  translate_eq_pte (h.plain v hv) (h.passable v hv)

theorem UserSpace.readByte_eq (h : UserSpace s root) (hv : LowerHalf v) :
    readByte s.mem root v = if present (pte s.mem root v) then
      some (s.mem (frameAddr (frame (pte s.mem root v)) + v % 4096)) else none := by
  rw [readByte, h.translate_eq hv]
  split
  · rfl
  · rfl

theorem UserSpace.getPhysicalIn_eq (h : UserSpace s root) (hv : LowerHalf v) :
    getPhysicalIn s (frameAddr root) v = if present (pte s.mem root v) then
      frame (pte s.mem root v) * pageSize + v % pageSize else 0 :=
  AcornOS.getPhysicalIn_eq (h.plain v hv)

/-- Writing to anything but its tables does not change a space. -/
theorem UserSpace.write (h : UserSpace s root) (hsame : SameTables s.mem m root) :
    UserSpace ⟨m, s.pmm⟩ root := by
  refine ⟨⟨h.wf.pmm, h.wf.ram⟩, ⟨?_, ?_⟩, ?_, fun v hv => ?_, fun v hv => hsame.onPath (h.passable v hv),
    fun v hv => ?_, fun v w hv hw => ?_⟩
  · rw [hsame.tables_eq]
    exact h.tree.nodup
  · rw [hsame.tables_eq]
    exact h.tree.used
  · rw [hsame.tables_eq]
    exact h.zero
  · exact not_hugeOnPath_iff.mpr (hsame.onPath (not_hugeOnPath_iff.mp (h.plain v hv)))
  · rw [hsame.pte_eq, hsame.tables_eq]
    exact h.used v hv
  · rw [hsame.pte_eq, hsame.pte_eq]
    exact h.inj v w hv hw

/-- A frame that is no table may be written to. -/
theorem UserSpace.sameTables {X : Set Nat} (h : UserSpace s root) (honly : OnlyIn s.mem m X)
    (hX : ∀ q ∈ root :: tables s.mem root, q ∉ X) : SameTables s.mem m root :=
  .of_onlyIn h.tree h.wf honly hX

end Space

/-! ## 2. A new page -/

/-- `ZeroedPage s t root va flags f N`: the page at `va` is now frame `f` and zeroed, with `f` and its new
tables the frames `N`.  All other addresses are where they were. -/
structure ZeroedPage (s t : Machine) (root va flags f : Nat) (N : Finset Nat) : Prop where
  takes : Takes s.pmm t.pmm N
  few : N.card ≤ 4
  only : OnlyIn s.mem t.mem ({q | q ∈ root :: tables s.mem root} ∪ N)
  tree : TableTree t root
  tables : ∀ q ∈ tables t.mem root, q ∈ tables s.mem root ∨ q ∈ N
  mem : f ∈ N
  leaf : f ∉ root :: AcornOS.tables t.mem root
  here : pte t.mem root va = pageEntry (f * pageSize) flags
  zero : ∀ k < 4096, t.mem (frameAddr f + k) = 0
  others : ∀ w, path w ≠ path va → pte t.mem root w = pte s.mem root w
  translate : ∀ w, path w ≠ path va → translate t.mem root w = translate s.mem root w
  onPath : ∀ P, (∀ l, ∀ c < 2 ^ 40, P l (tableEntry (c * pageSize))) →
    ∀ w, OnPath P s.mem root w → OnPath P t.mem root w

/-- `PageAdded s t root va flags f N`: the page at `va` is now frame `f` and zeroed, with `f` and its new
tables the frames `N`.  All other addresses are where they were. -/
structure PageAdded (s t : Machine) (root va flags f : Nat) (N : Finset Nat) : Prop where
  takes : Takes s.pmm t.pmm N
  few : N.card ≤ 4
  only : OnlyIn s.mem t.mem ({q | q ∈ root :: tables s.mem root} ∪ N)
  space : UserSpace t root
  tables : ∀ q ∈ tables t.mem root, q ∈ tables s.mem root ∨ q ∈ N
  mem : f ∈ N
  here : pte t.mem root va = pageEntry (f * pageSize) flags
  zero : ∀ k < 4096, t.mem (frameAddr f + k) = 0
  others : ∀ w, path w ≠ path va → pte t.mem root w = pte s.mem root w
  kept : ∀ w x, path w ≠ path va → translate s.mem root w = some x → translate t.mem root w = some x

section Adding

variable {s t : Machine} {root va flags f : Nat} {N : Finset Nat}

/-- A table is writable, and for users. -/
theorem passable_tableEntry (l c : Nat) : Passable l (tableEntry (c * pageSize)) := by
  unfold Passable permissions writable user tableEntry setFrame pageSize
  refine Prod.ext (decide_eq_true ?_) (decide_eq_true ?_) <;> omega

/-- **`pmm_alloc`, `map_page_in`, and the page zeroed**, in any directory.  The page and three tables are all
it may need. -/
theorem TableTree.mapZeroed (flags : Nat) (h : TableTree s root) (hs : s.Wf)
    (hv : ¬ HugeOnPath s.mem root va) (hflags : flags % 2 = 1) :
    Ensures (mapZeroed (frameAddr root) va flags s) (fun _ => s.pmm.freePages.card < 4)
      (fun t => ∃ f N, ZeroedPage s t root va flags f N) := by
  unfold AcornOS.mapZeroed
  refine Ensures.bind ((pmmAlloc_spec hs.pmm).mono (fun _ he => by simp [he.2]) fun r hr => hr) ?_
  rintro ⟨a, pm⟩ ⟨f, hf, -, rfl, htakes⟩
  simp only at htakes ⊢
  have hcard := htakes.card_add
  rw [Finset.card_singleton] at hcard
  have hfused : pm.Used f := htakes.used_of_mem (Finset.mem_singleton_self f)
  have hfnot : ∀ q, s.pmm.Used q → q ≠ f := fun q hq => hq.ne_taken htakes
  have htree : TableTree ⟨s.mem, pm⟩ root := ⟨h.nodup, fun q hq => (h.used q hq).of_takes htakes⟩
  have hwf : Machine.Wf ⟨s.mem, pm⟩ := hs.of_takes htakes
  refine Ensures.bind ((htree.mapPageIn hwf hv (hs.lt_of_free hf) hflags).mono (fun _ he => ?_)
    fun u hu => hu) ?_
  · simp only at he
    omega
  rintro u ⟨N, hmap⟩
  obtain ⟨hzero, hzero'⟩ := @zeroPage_spec f u.mem (hs.lt_of_free hf)
  have hleaf : f ∉ root :: tables u.mem root := by
    intro hmem
    rcases root_or_mem (fun q => (hmap.mem q).mp) hmem with hmem | hmem
    · exact hfnot f (h.used f hmem) rfl
    · exact hmap.takes.notMem_of_test hfused.2 hmem
  have hsame : SameTables u.mem (zeroPage u.mem (frameAddr f)) root := by
    refine .of_onlyIn hmap.tree (hwf.of_takes hmap.takes) hzero ?_
    rintro q hq rfl
    exact hleaf hq
  rw [physicalToVirtual_page]
  generalize zeroPage u.mem (frameAddr f) = m at *
  refine ensures_ok.mpr ⟨f, {f} ∪ N, htakes.trans hmap.takes, ?_, ?_, ⟨?_, ?_⟩, fun q hq => ?_,
    Finset.mem_union_left _ (Finset.mem_singleton_self f), ?_, ?_, hzero', fun w hw => ?_, fun w hw => ?_,
    fun P hP w hw => hsame.onPath (hmap.onPath P hP w hw)⟩
  · have := Finset.card_union_le {f} N
    have := hmap.few
    rw [Finset.card_singleton] at *
    omega
  · refine OnlyIn.trans (hmap.only.mono ?_) (hzero.mono ?_)
    · rintro q (hq | hq)
      · exact Or.inl hq
      · exact Or.inr (Finset.mem_union_right _ hq)
    · rintro q rfl
      exact Or.inr (Finset.mem_union_left _ (Finset.mem_singleton_self q))
  · rw [hsame.tables_eq]
    exact hmap.tree.nodup
  · rw [hsame.tables_eq]
    exact hmap.tree.used
  · rw [hsame.tables_eq] at hq
    exact ((hmap.mem q).mp hq).imp id (Finset.mem_union_right _)
  · rw [hsame.tables_eq]
    exact hleaf
  · exact (hsame.pte_eq va).trans hmap.here
  · exact (hsame.pte_eq w).trans (hmap.others w hw)
  · exact (hsame.translate_eq w).trans (hmap.translate_eq hw)

/-- A page of a directory is no table of it after another one was mapped. -/
theorem ZeroedPage.not_table (h : ZeroedPage s t root va flags f N) {q : Nat} (hq : s.pmm.Used q)
    (hnot : q ∉ root :: AcornOS.tables s.mem root) : q ∉ root :: AcornOS.tables t.mem root := by
  intro hmem
  rcases root_or_mem h.tables hmem with hmem | hmem
  · exact hnot hmem
  · exact h.takes.notMem_of_test hq.2 hmem

theorem ZeroedPage.not_hugeOnPath (h : ZeroedPage s t root va flags f N) {w : Nat}
    (hw : ¬ HugeOnPath s.mem root w) : ¬ HugeOnPath t.mem root w :=
  not_hugeOnPath_iff.mpr (h.onPath _ (fun l _ hc => not_mapsHuge_tableEntry l hc) w
    (not_hugeOnPath_iff.mp hw))

/-- A space with a new page is a space. -/
theorem UserSpace.zeroed (h : UserSpace s root) (hva : LowerHalf va) (hflags : flags % 2 = 1)
    (hpage : ZeroedPage s t root va flags f N) : UserSpace t root := by
  have hwf := h.wf.of_takes hpage.takes
  have hfused : t.pmm.Used f := hpage.takes.used_of_mem hpage.mem
  obtain ⟨-, hpres, -, hframe⟩ := pageEntry_spec (hwf.lt_of_used hfused) hflags
  have hnew : ∀ q, s.pmm.Used q → q ≠ f := by
    rintro q hq rfl
    exact hpage.takes.notMem_of_test hq.2 hpage.mem
  -- the entry for an address is the new one or its old one
  have hcases : ∀ v, LowerHalf v → (v / pageSize = va / pageSize ∧
      pte t.mem root v = pageEntry (f * pageSize) flags) ∨ pte t.mem root v = pte s.mem root v := by
    intro v hv
    by_cases hpath : path v = path va
    · exact Or.inl ⟨path_inj hv hva hpath, (pte_congr hpath root).trans hpage.here⟩
    · exact Or.inr (hpage.others v hpath)
  refine ⟨hwf, hpage.tree, fun hzero => ?_, fun v hv => hpage.not_hugeOnPath (h.plain v hv), fun v hv =>
    hpage.onPath _ (fun l c _ => passable_tableEntry l c) v (h.passable v hv), fun v hv hp => ?_,
    fun v w hv hw hp hp' heq => ?_⟩
  · rcases root_or_mem hpage.tables hzero with hzero | hzero
    · exact h.zero hzero
    · exact absurd (h.wf.pmm.pos_of_mem (hpage.takes.free hzero)) (Nat.lt_irrefl 0)
  · rcases hcases v hv with ⟨-, hpte⟩ | hpte
    · rw [hpte, hframe]
      exact ⟨hfused, hpage.leaf⟩
    · rw [hpte] at hp ⊢
      obtain ⟨hused, hnot⟩ := h.used v hv hp
      exact ⟨hused.of_takes hpage.takes, hpage.not_table hused hnot⟩
  · rcases hcases v hv with ⟨hsame, hpte⟩ | hpte <;> rcases hcases w hw with ⟨hsame', hpte'⟩ | hpte'
    · rw [hsame, hsame']
    · rw [hpte, hpte', hframe] at heq
      exact absurd heq.symm (hnew _ (h.used w hw (hpte' ▸ hp')).1)
    · rw [hpte, hpte', hframe] at heq
      exact absurd heq (hnew _ (h.used v hv (hpte ▸ hp)).1)
    · rw [hpte, hpte'] at heq
      exact h.inj v w hv hw (hpte ▸ hp) (hpte' ▸ hp') heq

/-- **A new page in a space.** -/
theorem mapZeroed_space (flags : Nat) (h : UserSpace s root) (hva : LowerHalf va)
    (hflags : flags % 2 = 1) :
    Ensures (mapZeroed (frameAddr root) va flags s) (fun _ => s.pmm.freePages.card < 4)
      (fun t => ∃ f N, PageAdded s t root va flags f N) := by
  refine (h.tree.mapZeroed flags h.wf (h.plain va hva) hflags).mono (fun _ he => he) ?_
  rintro t ⟨f, N, hpage⟩
  exact ⟨f, N, hpage.takes, hpage.few, hpage.only, h.zeroed hva hflags hpage, hpage.tables, hpage.mem,
    hpage.here, hpage.zero, hpage.others, fun w x hw hx => (hpage.translate w hw).trans hx⟩

end Adding

end AcornOS
