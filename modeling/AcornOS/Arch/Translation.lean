/-
# The kernel's walk and the processor's (`get_physical`, `get_physical_in`)

The kernel has three walkers of page tables.  Those that copy and free a directory look at the page size
bit of an entry; `get_pt_entry` does not, and takes a 2MB page for a page table.

* `physical m root v`: the address that the processor arrives at.
* `kernelWalk m root v`: the frame that `get_physical_in` arrives at, whatever is on the way.
* **`physical_agrees_iff`**: the two agree about an address EXACTLY WHEN it is not in a 2MB page, or if
  the bytes that the page has where a page table has the entry happen to be such an entry.
-/
import AcornOS.Arch.MapLookup

namespace AcornOS

open Lib

/-! ## 1. Two walks -/

/-- `get_physical`: the walk from `kernel_pml4`. -/
def getPhysical (s : Machine) (kernelPml4 vaddr : Nat) : Nat := getPhysicalOr 0 s kernelPml4 vaddr

/-- The physical address that the processor arrives at, if all entries on the way are present. -/
def physical (m : Memory) (root v : Nat) : Option Nat :=
  (translate m root v).map fun x => x.target v * pageSize + v % pageSize

/-- A tree whose pages are 4KB pages in page tables and 2MB pages in PDs. -/
def NoGiantPage (m : Memory) (root : Nat) : Prop := ∀ v e, translate m root v ≠ some (.giant e)

/-- Four levels of tables, and no bit for the page size. -/
def kernelWalk (m : Memory) (root v : Nat) : Option Nat :=
  (lookup m root (pml4Index v)).bind fun e4 =>
  (lookup m (frame e4) (pdptIndex v)).bind fun e3 =>
  (lookup m (frame e3) (pdIndex v)).bind fun e2 =>
  (lookup m (frame e2) (ptIndex v)).map frame

/-- What the word at the place of the entry for `v` in the 2MB page of `e` has to be, if that page is
taken for a page table: an entry for the frame that `v` is in.  Frame 0 may be missed, since its
address is what is returned for a page that is not there. -/
def LooksMapped (m : Memory) (e v : Nat) : Prop :=
  let word := entry m (frame e) (ptIndex v)
  let f := frame e / 2 ^ 9 * 2 ^ 9 + ptIndex v
  if present word then frame word = f else f = 0 ∧ v % pageSize = 0

section Walks

variable {s : Machine} {m : Memory} {root p i v : Nat}

theorem nextTable_eq_lookup (hi : i < 512) : nextTable s (entryAddr (frameAddr p) i) false =
    .ok ((lookup s.mem p i).map fun e => frameAddr (frame e), s) := by
  unfold nextTable lookup
  rw [load64_entryAddr hi]
  split
  · rw [physicalToVirtual_page]
    rfl
  · rfl

/-- **`get_physical_in`** in any tree. -/
theorem getPhysicalOr_eq_kernelWalk (unmapped : Nat) : getPhysicalOr unmapped s (frameAddr root) v =
    (kernelWalk s.mem root v).elim unmapped fun f => f * pageSize + v % pageSize := by
  unfold getPhysicalOr getPtEntry kernelWalk
  rw [nextTable_eq_lookup (pml4Index_lt_512 v)]
  cases lookup s.mem root (pml4Index v) with
  | none => rfl
  | some e4 =>
    simp only [Option.map_some, bind, Except.bind, Option.bind_some]
    rw [nextTable_eq_lookup (pdptIndex_lt v)]
    cases lookup s.mem (frame e4) (pdptIndex v) with
    | none => rfl
    | some e3 =>
      simp only [Option.map_some, Option.bind_some]
      rw [nextTable_eq_lookup (pdIndex_lt v)]
      cases lookup s.mem (frame e3) (pdIndex v) with
      | none => rfl
      | some e2 =>
        simp only [Option.map_some, Option.bind_some]
        rw [load64_entryAddr (ptIndex_lt v), lookup]
        split
        · rfl
        · rfl

/-- The processor's walk beside the kernel's. -/
theorem translate_cases (m : Memory) (root v : Nat) :
    ((∀ e bits, translate m root v ≠ some (.large e bits)) ∧
      (translate m root v).map (·.target v) = kernelWalk m root v) ∨
    (∃ e, translate m root v = some (.giant e)) ∨
    ∃ e bits, translate m root v = some (.large e bits) ∧
      kernelWalk m root v = (lookup m (frame e) (ptIndex v)).map frame := by
  unfold translate kernelWalk
  cases lookup m root (pml4Index v) with
  | none => exact Or.inl ⟨by simp, rfl⟩
  | some e4 =>
    simp only [Option.bind_some]
    cases lookup m (frame e4) (pdptIndex v) with
    | none => exact Or.inl ⟨by simp, rfl⟩
    | some e3 =>
      simp only [Option.bind_some]
      split
      · exact Or.inr (Or.inl ⟨e3, rfl⟩)
      · cases lookup m (frame e3) (pdIndex v) with
        | none => exact Or.inl ⟨by simp, rfl⟩
        | some e2 =>
          simp only [Option.bind_some]
          split
          · exact Or.inr (Or.inr ⟨e2, _, rfl, rfl⟩)
          · cases lookup m (frame e2) (ptIndex v) with
            | none => exact Or.inl ⟨by simp, rfl⟩
            | some e1 => exact Or.inl ⟨by simp, rfl⟩

end Walks

/-! ## 2. When they agree -/

/-- An address in frame `f` is not the address 0, unless it is the first one. -/
theorem pageAddr_eq_zero {f v : Nat} :
    f * pageSize + v % pageSize = 0 ↔ f = 0 ∧ v % pageSize = 0 := by
  unfold pageSize
  omega

/-- **Software and hardware agree iff a 2MB page looks like its own page table.** -/
theorem physical_agrees_iff (s : Machine) (root v : Nat) (hgiant : NoGiantPage s.mem root) :
    (getPhysicalIn s (frameAddr root) v = (physical s.mem root v).getD 0 ∧
      getPhysical s (frameAddr root) v = (physical s.mem root v).getD 0) ↔
    ∀ e bits, translate s.mem root v = some (.large e bits) → LooksMapped s.mem e v := by
  have hin : getPhysicalIn s (frameAddr root) v = (kernelWalk s.mem root v).elim 0 fun f =>
      f * pageSize + v % pageSize := getPhysicalOr_eq_kernelWalk 0
  have hkernel : getPhysical s (frameAddr root) v = (kernelWalk s.mem root v).elim 0 fun f =>
      f * pageSize + v % pageSize := getPhysicalOr_eq_kernelWalk 0
  rw [hin, hkernel, and_self]
  rcases translate_cases s.mem root v with
    ⟨hsmall, hwalk⟩ | ⟨e, he⟩ | ⟨e, bits, hlarge, hwalk⟩
  · refine ⟨fun _ e bits h => absurd h (hsmall e bits), fun _ => ?_⟩
    rw [← hwalk, physical]
    cases translate s.mem root v with
    | none => rfl
    | some x => rfl
  · exact absurd he (hgiant v e)
  · have htarget : physical s.mem root v = some
        ((frame e / 2 ^ 9 * 2 ^ 9 + ptIndex v) * pageSize + v % pageSize) := by
      rw [physical, hlarge]
      rfl
    have hall : (∀ e' bits', translate s.mem root v = some (.large e' bits') →
        LooksMapped s.mem e' v) ↔ LooksMapped s.mem e v := by
      rw [hlarge]
      constructor
      · exact fun h => h e bits rfl
      · rintro h e' bits' heq
        obtain ⟨rfl, -⟩ := Mapping.large.inj (Option.some.inj heq)
        exact h
    rw [hall, hwalk, htarget, Option.getD_some, LooksMapped, lookup]
    split
    · rw [Option.map_some, Option.elim_some, Nat.add_right_cancel_iff,
        Nat.mul_left_inj (by decide)]
    · rw [Option.map_none, Option.elim_none, eq_comm, pageAddr_eq_zero]

/-- A 4KB page is found. -/
theorem physical_agrees_one_page :
    getPhysicalIn onePageMachine (frameAddr 1) 0x123 = (physical onePageMachine.mem 1 0x123).getD 0 ∧
      physical onePageMachine.mem 1 0x123 = some 0x5123 := by
  have hsmall : translate onePageMachine.mem 1 0x123 = some (.small 5 (List.replicate 4 (true, true))) := by
    decide +kernel
  refine ⟨((physical_agrees_iff onePageMachine 1 0x123
    translate_onePageMachine_ne_giant).mpr fun e bits hlarge => ?_).1, ?_⟩
  · rw [hsmall] at hlarge
    cases hlarge
  · rw [physical, hsmall]
    rfl

/-! ### The direct map -/

/-- What stage 2 sets up for the first 2MB of the direct map: the PML4 is in frame 1, with its PDPT in
frame 4 and the PD in frame 7. -/
def directMap : Memory :=
  store64 (store64 (store64 (fun _ => 0) (frameAddr 7 + 8 * 0) 0x83) (frameAddr 4 + 8 * 0) 0x7003)
    (frameAddr 1 + 8 * 256) 0x4003

theorem entry_directMap {p i : Nat} (hp : p < 2 ^ 40) (hi : i < 512) : entry directMap p i =
    if p = 1 ∧ i = 256 then 0x4003 else if p = 4 ∧ i = 0 then 0x7003
    else if p = 7 ∧ i = 0 then 0x83 else 0 := by
  unfold directMap
  rw [entry_store64 hp (by decide) hi (by decide) (by decide),
    entry_store64 hp (by decide) hi (by decide) (by decide),
    entry_store64 hp (by decide) hi (by decide) (by decide), entry_zero]

/-- There is no 1GB page in it. -/
theorem noGiantPage_directMap : NoGiantPage directMap 1 := by
  intro v e he
  obtain ⟨e4, h4, h3, hhuge⟩ := translate_eq_giant he
  obtain ⟨hpres, rfl⟩ := lookup_eq_some.mp h4
  obtain ⟨-, rfl⟩ := lookup_eq_some.mp h3
  rw [entry_directMap (by decide) (pml4Index_lt_512 v)] at hpres hhuge
  by_cases h256 : pml4Index v = 256
  · rw [if_pos ⟨rfl, h256⟩, show frame 0x4003 = 4 from rfl,
      entry_directMap (by decide) (pdptIndex_lt v)] at hhuge
    split at hhuge
    · omega
    · split at hhuge
      · cases hhuge
      · split at hhuge
        · omega
        · cases hhuge
  · rw [if_neg fun h => h256 h.2] at hpres
    cases hpres

/-- A page of the direct map is there, and the kernel does not find it. -/
theorem direct_map_not_found : NoGiantPage directMap 1 ∧
    physical directMap 1 0xFFFF800000001000 = some 0x1000 ∧
    getPhysicalIn ⟨directMap, onePageMachine.pmm⟩ (frameAddr 1) 0xFFFF800000001000 = 0 :=
  ⟨noGiantPage_directMap, by decide +kernel, by decide +kernel⟩

end AcornOS
