/-
# The map/lookup law (`map_page_in`, `get_physical_in`)

`Mapping.lean` follows the directories that processes own.  Here a directory is only what `get_pt_entry`
sees of it: a tree of TABLES, with all 512 entries of each, and nothing is said about the pages that
they map.  A page may be mapped twice, or be a table, or not be in use.

* `TableTree s root`: no table can be reached twice, and every one is a used frame.
* `pte m root v`: the word that the walk for `v` arrives at, 0 if a table is missing.  A new table is
  blank, so that growing the tree keeps EVERY `pte` (`TablesGrown`).
* **`map_lookup_law`**: `map_page_in` changes what `get_physical_in` says about one page and about no
  other page, keeps the tree, and its new tables are new frames.

The walk takes a huge page for a table, so both are about addresses whose walk meets none.
-/
import AcornOS.Arch.Mapping

namespace AcornOS

open Lib
open scoped List

/-! ## 1. Tables -/

/-- The PML4 has level 3 and a page table level 0. -/
def tableWidth (_ : Nat) : Nat := 512

/-- A present entry of a PDPT or a PD may be a page itself.  In a PML4 the bit has no meaning. -/
def mapsHuge (l e : Nat) : Bool := l != 3 && hugePage e

/-- The table that an entry leads to. -/
def tableKids (m : Memory) : Kids Nat := fun l p i =>
  if present (entry m p i) && !mapsHuge l (entry m p i) then some (frame (entry m p i)) else none

/-- The tables below the PML4, with their levels. -/
def tableNodes (m : Memory) (root : Nat) : List (Nat × Nat) := nodes tableWidth (tableKids m) 3 root

def tables (m : Memory) (root : Nat) : List Nat := (tableNodes m root).map Prod.snd

/-- **An unshared tree of used frames.** -/
structure TableTree (s : Machine) (root : Nat) : Prop where
  nodup : (root :: tables s.mem root).Nodup
  used : ∀ q ∈ root :: tables s.mem root, s.pmm.Used q

/-- The table that some indices lead to. -/
def tableAt (m : Memory) (root : Nat) (is : List Nat) : Option Nat :=
  walk tableWidth (tableKids m) 3 root is

/-- The way to the page table for an address. -/
def tablePath (v : Nat) : List Nat := [pml4Index v, pdptIndex v, pdIndex v]

/-- The entry for an address, 0 if there is no page table for it. -/
def pte (m : Memory) (root v : Nat) : Nat :=
  ((tableAt m root (tablePath v)).map fun p => entry m p (ptIndex v)).getD 0

/-- A walk meets an entry that maps a huge page. -/
def meetsHuge (m : Memory) : Nat → Nat → List Nat → Bool
  | _, _, [] => false
  | l, p, i :: is => present (entry m p i) &&
    (mapsHuge l (entry m p i) || meetsHuge m (l - 1) (frame (entry m p i)) is)

def HugeOnPath (m : Memory) (root v : Nat) : Prop := meetsHuge m 3 root (tablePath v) = true

/-- The present entries that a walk meets in tables of tables have the property `P`, which may depend on
the level. -/
def OnPath (P : Nat → Nat → Prop) (m : Memory) (root v : Nat) : Prop :=
  ∀ is i l p, is ++ [i] <+: tablePath v → 3 = is.length + (l + 1) → tableAt m root is = some p →
    present (entry m p i) = true → P (l + 1) (entry m p i)

section Tables

variable {m m' : Memory} {s : Machine} {root l p i v c : Nat} {is : List Nat}

theorem pml4Index_lt_512 (v : Nat) : pml4Index v < 512 := Nat.mod_lt _ (by decide)

theorem tablePath_lt : ∀ i ∈ tablePath v, i < 512 := by
  simp only [tablePath, List.mem_cons, List.not_mem_nil, or_false]
  rintro i (rfl | rfl | rfl)
  · exact pml4Index_lt_512 v
  · exact pdptIndex_lt v
  · exact pdIndex_lt v

theorem path_lt : ∀ i ∈ path v, i < 512 := by
  simp only [path, List.mem_cons, List.not_mem_nil, or_false]
  rintro i (rfl | rfl | rfl | rfl)
  · exact pml4Index_lt_512 v
  · exact pdptIndex_lt v
  · exact pdIndex_lt v
  · exact ptIndex_lt v

/-- Two addresses with one path agree in the bits 47 to 12. -/
theorem path_eq_iff {v w : Nat} : path v = path w ↔ v / pageSize % 2 ^ 36 = w / pageSize % 2 ^ 36 := by
  simp only [path, List.cons.injEq, and_true, pml4Index, pdptIndex, pdIndex, ptIndex, pageSize]
  omega

theorem tableKids_congr (h : entry m' p i = entry m p i) : tableKids m' l p i = tableKids m l p i := by
  unfold tableKids
  rw [h]

theorem tableKids_absent (h : ¬ present (entry m p i) = true) : tableKids m l p i = none := by
  unfold tableKids
  rw [Bool.eq_false_iff.mpr h]
  rfl

theorem tableKids_present (h : present (entry m p i) = true)
    (hhuge : mapsHuge l (entry m p i) = false) :
    tableKids m l p i = some (frame (entry m p i)) := by
  unfold tableKids
  rw [h, hhuge]
  rfl

theorem tableKids_blank (h : entry m p i = 0) : tableKids m l p i = none :=
  tableKids_absent (by rw [h]; decide)

/-- What a walk leads to is the root or a table below it. -/
theorem mem_of_tableAt (h : tableAt m root is = some p) (hl : 3 = is.length + l) :
    (l, p) = (3, root) ∨ (l, p) ∈ tableNodes m root := by
  cases is with
  | nil =>
    rw [tableAt, walk_nil] at h
    simp only [List.length_nil, Nat.zero_add] at hl
    exact Or.inl (by rw [← hl, Option.some.inj h])
  | cons i is => exact Or.inr (mem_nodes_of_walk (by simp) h hl)

theorem mem_tables_of_tableAt (h : tableAt m root is = some p) (hl : 3 = is.length + l) :
    p ∈ root :: tables m root := by
  rcases mem_of_tableAt h hl with heq | hmem
  · rw [(Prod.mk.inj heq).2]
    exact List.mem_cons_self
  · exact List.mem_cons_of_mem _ (List.mem_map.mpr ⟨_, hmem, rfl⟩)

theorem TableTree.lt (h : TableTree s root) (hs : s.Wf) (hp : p ∈ root :: tables s.mem root) :
    p < 2 ^ 40 :=
  hs.lt_of_used (h.used p hp)

/-- A table has one level. -/
theorem TableTree.level_unique {k : Nat} (h : TableTree s root)
    (hp : (l, p) = (3, root) ∨ (l, p) ∈ tableNodes s.mem root)
    (hp' : (k, p) = (3, root) ∨ (k, p) ∈ tableNodes s.mem root) : l = k := by
  have hroot : ∀ {j}, (j, root) ∉ tableNodes s.mem root := fun hmem =>
    (List.nodup_cons.mp h.nodup).1 (List.mem_map.mpr ⟨_, hmem, rfl⟩)
  rcases hp with heq | hp <;> rcases hp' with heq' | hp'
  · rw [(Prod.mk.inj heq).1, (Prod.mk.inj heq').1]
  · rw [(Prod.mk.inj heq).2] at hp'
    exact absurd hp' hroot
  · rw [(Prod.mk.inj heq').2] at hp
    exact absurd hp hroot
  · have heq := List.inj_on_of_nodup_map (List.nodup_cons.mp h.nodup).2 hp hp' rfl
    exact (Prod.mk.inj heq).1

/-- A page table has one path. -/
theorem TableTree.tablePath_eq {w : Nat} (h : TableTree s root)
    (hv : tableAt s.mem root (tablePath v) = some p) (hw : tableAt s.mem root (tablePath w) = some p) :
    tablePath v = tablePath w := by
  have hnodup : ((nodes tableWidth (tableKids s.mem) 3 root).map Prod.snd).Nodup :=
    (List.nodup_cons.mp h.nodup).2
  exact @walk_inj Nat tableWidth (tableKids s.mem) _ _ 3 0 root p hnodup hv hw rfl rfl

/-- A huge page is met in a table that the walk gets to. -/
theorem meetsHuge_iff : ∀ {is : List Nat} {n p : Nat}, is.length ≤ n → (∀ i ∈ is, i < 512) →
    (meetsHuge m n p is = true ↔ ∃ js i l q, js ++ [i] <+: is ∧ n = js.length + (l + 1) ∧
      walk tableWidth (tableKids m) n p js = some q ∧ present (entry m q i) = true ∧
      mapsHuge (l + 1) (entry m q i) = true)
  | [], n, p, _, _ => by
    simp only [meetsHuge, Bool.false_eq_true, false_iff, not_exists, not_and]
    intro js i l q hpre
    simp at hpre
  | i :: is, 0, p, hlen, _ => absurd hlen (by simp)
  | i :: is, n + 1, p, hlen, hlt => by
    have hi : i < tableWidth (n + 1) := hlt i List.mem_cons_self
    have ih := @meetsHuge_iff is n (frame (entry m p i)) (Nat.le_of_succ_le_succ hlen)
      fun j hj => hlt j (List.mem_cons_of_mem _ hj)
    rw [meetsHuge, Bool.and_eq_true, Bool.or_eq_true, Nat.add_sub_cancel, ih]
    constructor
    · rintro ⟨hpres, hhuge | ⟨js, j, l, q, hpre, hn, hwalk, hq⟩⟩
      · exact ⟨[], i, n, p, by simp, by simp, walk_nil _ _, hpres, hhuge⟩
      · cases hhuge : mapsHuge (n + 1) (entry m p i) with
        | true => exact ⟨[], i, n, p, by simp, by simp, walk_nil _ _, hpres, hhuge⟩
        | false =>
          refine ⟨i :: js, j, l, q, List.cons_prefix_cons.mpr ⟨rfl, hpre⟩, ?_, ?_, hq⟩
          · rw [List.length_cons]
            omega
          · rw [walk_cons hi, tableKids_present hpres hhuge, Option.bind_some, hwalk]
    · rintro ⟨js, j, l, q, hpre, hn, hwalk, hpres, hhuge⟩
      cases js with
      | nil =>
        rw [walk_nil] at hwalk
        obtain rfl := Option.some.inj hwalk
        obtain ⟨rfl, -⟩ := List.cons_prefix_cons.mp hpre
        simp only [List.length_nil, Nat.zero_add] at hn
        rw [← hn] at hhuge
        exact ⟨hpres, Or.inl hhuge⟩
      | cons k js =>
        rw [List.cons_append] at hpre
        obtain ⟨rfl, hjs⟩ := List.cons_prefix_cons.mp hpre
        rw [walk_cons hi] at hwalk
        obtain ⟨c, hc, hwalk⟩ := Option.bind_eq_some_iff.mp hwalk
        unfold tableKids at hc
        split at hc
        · rename_i hkid
          rw [Bool.and_eq_true] at hkid
          rw [← Option.some.inj hc] at hwalk
          refine ⟨hkid.1, Or.inr ⟨js, j, l, q, hjs, ?_, hwalk, hpres, hhuge⟩⟩
          rw [List.length_cons] at hn
          omega
        · cases hc

/-- The same for an address. -/
theorem not_hugeOnPath_iff :
    ¬ HugeOnPath m root v ↔ OnPath (fun l e => mapsHuge l e = false) m root v := by
  rw [HugeOnPath, meetsHuge_iff (le_refl 3) tablePath_lt]
  constructor
  · intro h is i l p hpre hl hat hpres
    refine Bool.eq_false_iff.mpr fun hhuge => h ?_
    exact ⟨is, i, l, p, hpre, hl, hat, hpres, hhuge⟩
  · rintro h ⟨is, i, l, p, hpre, hl, hat, hpres, hhuge⟩
    rw [h is i l p hpre hl hat hpres] at hhuge
    cases hhuge

/-- One step of a walk. -/
theorem tableAt_snoc (hat : tableAt m root is = some p) (hl : 3 = is.length + (l + 1)) (hi : i < 512) :
    tableAt m root (is ++ [i]) = tableKids m (l + 1) p i := by
  rw [tableAt, walk_append hat hl, walk_cons hi]
  cases tableKids m (l + 1) p i with
  | none => rfl
  | some c => rw [Option.bind_some, walk_nil]

/-- The processor finds an address where it was before if the entries that it has met are still there. -/
theorem translate_kept {x : Mapping} (h : ∀ is i p, is ++ [i] <+: path v → tableAt m root is = some p →
    present (entry m p i) = true → entry m' p i = entry m p i) (hx : translate m root v = some x) :
    translate m' root v = some x := by
  have hlookup : ∀ is {i p e}, is ++ [i] <+: path v → tableAt m root is = some p →
      lookup m p i = some e → lookup m' p i = some e := by
    intro is i p e hpre hat he
    obtain ⟨hpres, rfl⟩ := lookup_eq_some.mp he
    exact lookup_eq_some.mpr ⟨hpres, h is i p hpre hat hpres⟩
  have hnext : ∀ {is i p e l}, tableAt m root is = some p → 3 = is.length + (l + 1) → i < 512 →
      lookup m p i = some e → mapsHuge (l + 1) e = false →
      tableAt m root (is ++ [i]) = some (frame e) := by
    intro is i p e l hat hl hi he hhuge
    obtain ⟨hpres, rfl⟩ := lookup_eq_some.mp he
    rw [tableAt_snoc hat hl hi, tableKids_present hpres hhuge]
  have hroot : tableAt m root [] = some root := walk_nil 3 root
  unfold translate at hx ⊢
  obtain ⟨e4, h4, hx⟩ := Option.bind_eq_some_iff.mp hx
  obtain ⟨e3, h3, hx⟩ := Option.bind_eq_some_iff.mp hx
  have hat3 := hnext (l := 2) hroot rfl (pml4Index_lt_512 v) h4 rfl
  rw [hlookup [] (by simp [path]) hroot h4, Option.bind_some,
    hlookup _ (by simp [path]) hat3 h3, Option.bind_some]
  split
  · rename_i hhuge
    rwa [if_pos hhuge] at hx
  · rename_i hhuge
    rw [if_neg hhuge] at hx
    obtain ⟨e2, h2, hx⟩ := Option.bind_eq_some_iff.mp hx
    have hat2 := hnext (l := 1) hat3 rfl (pdptIndex_lt v) h3 (Bool.eq_false_iff.mpr hhuge)
    rw [hlookup _ (by simp [path]) hat2 h2, Option.bind_some]
    split
    · rename_i hhuge
      rwa [if_pos hhuge] at hx
    · rename_i hhuge
      rw [if_neg hhuge] at hx
      obtain ⟨e1, h1, hx⟩ := Option.bind_eq_some_iff.mp hx
      have hat1 := hnext (l := 0) hat2 rfl (pdIndex_lt v) h2 (Bool.eq_false_iff.mpr hhuge)
      rw [hlookup _ (by simp [path]) hat1 h1, Option.bind_some]
      exact hx

end Tables

/-- `SameTables m m' root`: the tables of a directory have the same entries. -/
def SameTables (m m' : Memory) (root : Nat) : Prop :=
  ∀ q ∈ root :: tables m root, ∀ j < 512, entry m' q j = entry m q j

namespace SameTables

variable {m m' : Memory} {root v : Nat}

theorem of_onlyIn {s : Machine} {X : Set Nat} (h : TableTree s root) (hs : s.Wf)
    (honly : OnlyIn s.mem m' X) (hX : ∀ q ∈ root :: tables s.mem root, q ∉ X) :
    SameTables s.mem m' root :=
  fun q hq _ hj => honly.entry_eq (h.lt hs hq) (hX q hq) hj

theorem agrees (h : SameTables m m' root) : Agrees tableWidth (tableKids m) (tableKids m') 3 root := by
  intro x hx _ j hj
  refine tableKids_congr (h x.2 ?_ j hj)
  rcases hx with rfl | hx
  · exact List.mem_cons_self
  · exact List.mem_cons_of_mem _ (List.mem_map.mpr ⟨x, hx, rfl⟩)

theorem tables_eq (h : SameTables m m' root) : tables m' root = tables m root := by
  rw [tables, tables, tableNodes, tableNodes, nodes_congr h.agrees]

theorem tableAt_eq (h : SameTables m m' root) (is : List Nat) :
    tableAt m' root is = tableAt m root is :=
  walk_congr h.agrees

theorem pte_eq (h : SameTables m m' root) (v : Nat) : pte m' root v = pte m root v := by
  unfold pte
  rw [h.tableAt_eq]
  cases hq : tableAt m root (tablePath v) with
  | none => rfl
  | some q =>
    rw [Option.map_some, Option.map_some, Option.getD_some, Option.getD_some]
    exact h q (mem_tables_of_tableAt (l := 0) hq rfl) _ (ptIndex_lt v)

theorem onPath (h : SameTables m m' root) {P : Nat → Nat → Prop} (hv : OnPath P m root v) :
    OnPath P m' root v := by
  intro js j k q hpre hk hq hpres
  rw [h.tableAt_eq] at hq
  rw [h q (mem_tables_of_tableAt hq hk) j (tablePath_lt j (hpre.mem (by simp)))] at hpres ⊢
  exact hv js j k q hpre hk hq hpres

theorem kept (h : SameTables m m' root) {x : Mapping} (hx : translate m root v = some x) :
    translate m' root v = some x := by
  refine translate_kept (fun js j q hpre hq _ => ?_) hx
  have hlen := hpre.length_le
  simp only [List.length_append, path, List.length_cons, List.length_nil] at hlen
  exact h q (mem_tables_of_tableAt (l := 3 - js.length) hq (by omega)) j
    (path_lt j (hpre.mem (by simp)))

theorem symm (h : SameTables m m' root) : SameTables m' m root := fun q hq j hj =>
  (h q (h.tables_eq ▸ hq) j hj).symm

/-- The processor finds the same. -/
theorem translate_eq (h : SameTables m m' root) (v : Nat) : translate m' root v = translate m root v := by
  cases hx : translate m root v with
  | some x => exact h.kept hx
  | none =>
    cases hy : translate m' root v with
    | none => rfl
    | some y => exact absurd (hx.symm.trans (h.symm.kept hy)) (Option.some_ne_none y).symm

end SameTables

/-! ## 2. Growing the tree -/

/-- `TablesGrown s t root N`: the directory has the new, blank tables `N`. -/
structure TablesGrown (s t : Machine) (root : Nat) (N : Finset Nat) : Prop where
  takes : Takes s.pmm t.pmm N
  only : OnlyIn s.mem t.mem ({q | q ∈ root :: tables s.mem root} ∪ N)
  tree : TableTree t root
  mem : ∀ q, q ∈ tables t.mem root ↔ q ∈ tables s.mem root ∨ q ∈ N
  pte : ∀ v, pte t.mem root v = pte s.mem root v
  onPath : ∀ P, (∀ l, ∀ c < 2 ^ 40, P l (tableEntry (c * pageSize))) →
    ∀ v, OnPath P s.mem root v → OnPath P t.mem root v
  kept : ∀ v x, translate s.mem root v = some x → translate t.mem root v = some x

theorem not_mapsHuge_tableEntry (l : Nat) {c : Nat} (hc : c < 2 ^ 40) :
    mapsHuge l (tableEntry (c * pageSize)) = false := by
  rw [mapsHuge, (tableEntry_spec hc).2.2.1, Bool.and_false]

theorem TablesGrown.not_hugeOnPath {s t : Machine} {root v : Nat} {N : Finset Nat}
    (h : TablesGrown s t root N) (hv : ¬ HugeOnPath s.mem root v) : ¬ HugeOnPath t.mem root v :=
  not_hugeOnPath_iff.mpr (h.onPath _ (fun l _ hc => not_mapsHuge_tableEntry l hc) v
    (not_hugeOnPath_iff.mp hv))

theorem TablesGrown.refl {s : Machine} {root : Nat} (h : TableTree s root) :
    TablesGrown s s root ∅ :=
  ⟨Takes.refl _, OnlyIn.refl _ _, h, by simp, fun _ => rfl, fun _ _ _ hv => hv, fun _ _ hx => hx⟩

theorem TablesGrown.trans {s t u : Machine} {root : Nat} {N N' : Finset Nat}
    (h : TablesGrown s t root N) (h' : TablesGrown t u root N') :
    TablesGrown s u root (N ∪ N') where
  takes := h.takes.trans h'.takes
  only := h.only.grow h'.only fun _ => root_or_mem fun q => (h.mem q).mp
  tree := h'.tree
  mem q := by rw [h'.mem, h.mem, Finset.mem_union, or_assoc]
  pte v := (h'.pte v).trans (h.pte v)
  onPath P hP v hv := h'.onPath P hP v (h.onPath P hP v hv)
  kept v x hx := h'.kept v x (h.kept v x hx)

/-- Writing an entry of a table is a rewriting of the tree. -/
theorem TableTree.rewrites {s : Machine} {m : Memory} {root p i l : Nat} {is : List Nat} {X : Set Nat}
    (h : TableTree s root) (hs : s.Wf) (hat : tableAt s.mem root is = some p)
    (hl : 3 = is.length + (l + 1)) (hi : i < 512) (honly : OnlyIn s.mem m X)
    (hX : ∀ q ∈ root :: tables s.mem root, q ≠ p → q ∉ X)
    (hrest : ∀ j < 512, j ≠ i → entry m p j = entry s.mem p j) :
    Rewrites tableWidth (tableKids s.mem) (tableKids m) 3 root is l p i := by
  refine ⟨hl, hat, hi, h.nodup, fun x hx _ j hj hne => tableKids_congr ?_⟩
  have hxmem : x.2 ∈ root :: tables s.mem root := by
    rcases hx with rfl | hx
    · exact List.mem_cons_self
    · exact List.mem_cons_of_mem _ (List.mem_map.mpr ⟨x, hx, rfl⟩)
  by_cases hxp : x.2 = p
  · rw [hxp]
    exact hrest j hj fun hji => hne ⟨hxp, hji⟩
  · exact honly.entry_eq (h.lt hs hxmem) (hX _ hxmem hxp) hj

/-- `NewTable s m root is l p i c`: in `m` the table `p`, which the indices `is` lead to, has got the blank
table `c` at its index `i`, where there was none. -/
structure NewTable (s : Machine) (m : Memory) (root : Nat) (is : List Nat) (l p i c : Nat) : Prop where
  wf : s.Wf
  tree : TableTree s root
  reach : tableAt s.mem root is = some p
  level : 3 = is.length + (l + 1)
  index : i < 512
  absent : ¬ present (entry s.mem p i) = true
  free : c ∈ s.pmm.freePages
  only : OnlyIn s.mem m ({p, c} : Set Nat)
  rest : ∀ j < 512, j ≠ i → entry m p j = entry s.mem p j
  leads : entry m p i = tableEntry (c * pageSize)
  blank : ∀ j < 512, entry m c j = 0

namespace NewTable

variable {s : Machine} {m : Memory} {root p i l c : Nat} {is : List Nat}

theorem not_table (h : NewTable s m root is l p i c) {q : Nat} (hq : q ∈ root :: tables s.mem root) :
    q ≠ c := by
  rintro rfl
  have := (Pmm.mem_freePages.mp h.free).2
  rw [(h.tree.used q hq).2] at this
  cases this

/-- Other tables have their entries. -/
theorem apart (h : NewTable s m root is l p i c) {q : Nat} (hq : q ∈ root :: tables s.mem root)
    (hqp : q ≠ p) : q ∉ ({p, c} : Set Nat) := by
  rintro (hq' | hq')
  · exact hqp hq'
  · exact h.not_table hq hq'

theorem entry_eq (h : NewTable s m root is l p i c) {q j : Nat} (hq : q ∈ root :: tables s.mem root)
    (hj : j < 512) (hne : ¬ (q = p ∧ j = i)) : entry m q j = entry s.mem q j := by
  by_cases hqp : q = p
  · subst hqp
    exact h.rest j hj fun hji => hne ⟨rfl, hji⟩
  · exact h.only.entry_eq (h.tree.lt h.wf hq) (h.apart hq hqp) hj

theorem kid_before (h : NewTable s m root is l p i c) : tableKids s.mem (l + 1) p i = none :=
  tableKids_absent h.absent

theorem kid_after (h : NewTable s m root is l p i c) : tableKids m (l + 1) p i = some c := by
  obtain ⟨-, hpres, -, hframe⟩ := tableEntry_spec (h.wf.lt_of_free h.free)
  rw [tableKids_present (by rw [h.leads]; exact hpres)
    (by rw [h.leads]; exact not_mapsHuge_tableEntry _ (h.wf.lt_of_free h.free)), h.leads, hframe]

theorem rewrites (h : NewTable s m root is l p i c) :
    Rewrites tableWidth (tableKids s.mem) (tableKids m) 3 root is l p i :=
  h.tree.rewrites h.wf h.reach h.level h.index h.only (fun _ => h.apart) h.rest

theorem kids_eq_none (h : NewTable s m root is l p i c) (k : Nat) {j : Nat} (hj : j < 512) :
    tableKids m k c j = none :=
  tableKids_blank (h.blank j hj)

/-- The tree has one more node. -/
theorem tables_perm (h : NewTable s m root is l p i c) : tables m root ~ c :: tables s.mem root := by
  obtain ⟨rest, htree, htree'⟩ := h.rewrites.replace_child
  rw [h.kid_before, subtree_none, List.nil_append] at htree
  rw [h.kid_after, subtree_some, nodes_eq_nil fun j hj => h.kids_eq_none l hj, List.nil_append,
    List.singleton_append] at htree'
  exact (htree'.trans (htree.symm.cons _)).map Prod.snd

/-- Walks that do not take the new entry end where they did, ... -/
theorem tableAt_other (h : NewTable s m root is l p i c) {js : List Nat} (hjs : ¬ is ++ [i] <+: js) :
    tableAt m root js = tableAt s.mem root js :=
  h.rewrites.walk_other js hjs

/-- ... and those that do end in the new table or nowhere. -/
theorem tableAt_through (h : NewTable s m root is l p i c) (js : List Nat) :
    tableAt s.mem root (is ++ i :: js) = none ∧
      tableAt m root (is ++ i :: js) = if js = [] then some c else none := by
  have hpath : tableAt m root is = some p := by
    refine (h.tableAt_other fun hpre => ?_).trans h.reach
    have := hpre.length_le
    simp at this
  refine ⟨?_, ?_⟩
  · rw [tableAt, walk_append h.reach h.level, walk_cons h.index, h.kid_before, Option.bind_none]
  · rw [tableAt, walk_append hpath h.level, walk_cons h.index, h.kid_after, Option.bind_some]
    cases js with
    | nil => rw [walk_nil, if_pos rfl]
    | cons j js =>
      rw [if_neg (List.cons_ne_nil j js)]
      cases l with
      | zero => rfl
      | succ l =>
        rw [walk]
        split
        · rename_i hj
          rw [h.kids_eq_none _ hj, Option.bind_none]
        · rfl

/-- The new table is blank, so no entry has changed. -/
theorem pte_eq (h : NewTable s m root is l p i c) (v : Nat) : pte m root v = pte s.mem root v := by
  unfold pte
  by_cases hpre : is ++ [i] <+: tablePath v
  · obtain ⟨js, hjs⟩ := hpre
    rw [List.append_assoc, List.singleton_append] at hjs
    rw [← hjs, (h.tableAt_through js).1, (h.tableAt_through js).2]
    split
    · exact h.blank _ (ptIndex_lt v)
    · rfl
  · rw [h.tableAt_other hpre]
    cases hq : tableAt s.mem root (tablePath v) with
    | none => rfl
    | some q =>
      refine h.entry_eq (mem_tables_of_tableAt (l := 0) hq rfl) (ptIndex_lt v) ?_
      rintro ⟨rfl, -⟩
      -- a page table is no table of tables
      exact absurd (h.tree.level_unique (mem_of_tableAt (l := 0) hq rfl)
        (mem_of_tableAt h.reach h.level)) (Nat.succ_ne_zero l).symm

theorem onPath (h : NewTable s m root is l p i c) {P : Nat → Nat → Prop}
    (hP : ∀ l, ∀ c < 2 ^ 40, P l (tableEntry (c * pageSize))) {v : Nat} (hv : OnPath P s.mem root v) :
    OnPath P m root v := by
  intro js j k q hpre hk hq hpres
  have hj : j < 512 := tablePath_lt j (hpre.mem (by simp))
  by_cases hthrough : is ++ [i] <+: js
  · obtain ⟨ks, rfl⟩ := hthrough
    rw [List.append_assoc, List.singleton_append, (h.tableAt_through ks).2] at hq
    split at hq
    · rw [← Option.some.inj hq, h.blank j hj] at hpres
      cases hpres
    · cases hq
  · rw [h.tableAt_other hthrough] at hq
    by_cases hnew : q = p ∧ j = i
    · rw [hnew.1, hnew.2, h.leads]
      exact hP _ c (h.wf.lt_of_free h.free)
    · have hsame := h.entry_eq (mem_tables_of_tableAt hq hk) hj hnew
      rw [hsame] at hpres ⊢
      exact hv js j k q hpre hk hq hpres

/-- The new entry was not present, so no walk has met it. -/
theorem kept (h : NewTable s m root is l p i c) {v : Nat} {x : Mapping}
    (hx : translate s.mem root v = some x) : translate m root v = some x := by
  refine translate_kept (fun js j q hpre hq hpres => ?_) hx
  have hlen : js.length ≤ 3 := by
    have := hpre.length_le
    simp only [List.length_append, path, List.length_cons, List.length_nil] at this
    omega
  refine h.entry_eq (mem_tables_of_tableAt (l := 3 - js.length) hq (by omega))
    (path_lt j (hpre.mem (by simp))) ?_
  rintro ⟨rfl, rfl⟩
  exact h.absent hpres

/-- **The tree grows by a blank table.** -/
theorem grown (h : NewTable s m root is l p i c) {pm : Pmm} (htakes : Takes s.pmm pm {c}) :
    TablesGrown s ⟨m, pm⟩ root {c} := by
  have hmem : ∀ q, q ∈ tables m root ↔ q ∈ tables s.mem root ∨ q ∈ ({c} : Finset Nat) := by
    intro q
    rw [h.tables_perm.mem_iff, List.mem_cons, Finset.mem_singleton, or_comm]
  have hpmem := mem_tables_of_tableAt h.reach h.level
  refine ⟨htakes, h.only.mono ?_, ⟨?_, ?_⟩, hmem, h.pte_eq, fun P hP v => h.onPath hP,
    fun v x => h.kept⟩
  · rintro q (rfl | rfl)
    · exact Or.inl hpmem
    · exact Or.inr (Finset.mem_singleton_self q)
  · have hswap : root :: tables m root ~ c :: root :: tables s.mem root :=
      (h.tables_perm.cons _).trans (List.Perm.swap _ _ _)
    rw [hswap.nodup_iff]
    exact List.nodup_cons.mpr ⟨fun hc => h.not_table hc rfl, h.tree.nodup⟩
  · intro q hq
    rcases List.mem_cons.mp hq with rfl | hq
    · exact (h.tree.used q List.mem_cons_self).of_takes htakes
    · rcases (hmem q).mp hq with hq | hq
      · exact (h.tree.used q (List.mem_cons_of_mem _ hq)).of_takes htakes
      · exact htakes.used_of_mem hq

end NewTable

/-! ## 3. `get_pt_entry` and `map_page_in` -/

section Walking

variable {s : Machine} {m : Memory} {root p i l v : Nat} {is : List Nat}

/-- One level of `get_pt_entry`: it arrives at the next table, taking at most one frame for it. -/
theorem TableTree.nextTable (h : TableTree s root) (hs : s.Wf)
    (hat : tableAt s.mem root is = some p) (hl : 3 = is.length + (l + 1))
    (hv : ¬ HugeOnPath s.mem root v) (hpre : is ++ [i] <+: tablePath v) :
    Ensures (nextTable s (entryAddr (frameAddr p) i) true) (fun _ => s.pmm.freePages = ∅)
      (fun r => ∃ c N, r.1 = some (frameAddr c) ∧ TablesGrown s r.2 root N ∧ N.card ≤ 1 ∧
        tableAt r.2.mem root (is ++ [i]) = some c) := by
  have hi : i < 512 := tablePath_lt i (hpre.mem (by simp))
  have hpmem := mem_tables_of_tableAt hat hl
  have hp40 := h.lt hs hpmem
  unfold AcornOS.nextTable
  rw [load64_entryAddr hi]
  by_cases hpres : present (entry s.mem p i) = true
  · rw [if_pos hpres, physicalToVirtual_page]
    refine ensures_ok.mpr ⟨frame (entry s.mem p i), ∅, rfl, TablesGrown.refl h, by simp, ?_⟩
    have hhuge := not_hugeOnPath_iff.mp hv is i l p hpre hl hat hpres
    dsimp only
    rw [tableAt_snoc hat hl hi, tableKids_present hpres hhuge]
  · rw [if_neg hpres, if_pos rfl]
    refine Ensures.bind (allocTable_spec hs) ?_
    rintro ⟨a, t⟩ ⟨c, hc, rfl, htakes, honly, hblank⟩
    simp only at htakes honly hblank ⊢
    have hc40 := hs.lt_of_free hc
    have hpc : p ≠ c := (h.used p hpmem).ne_taken htakes
    have hlt := (tableEntry_spec hc40).1
    have hframe := (tableEntry_spec hc40).2.2.2
    rw [entryAddr_frameAddr hi, virtualToPhysical_frameAddr hc40, load64_store64_self hlt, hframe,
      physicalToVirtual_page]
    have hstore := @onlyIn_store64 t.mem p i hp40 hi (tableEntry (c * pageSize))
    have hnew : NewTable s (store64 t.mem (frameAddr p + 8 * i) (tableEntry (c * pageSize))) root is
        l p i c :=
      { wf := hs
        tree := h
        reach := hat
        level := hl
        index := hi
        absent := hpres
        free := hc
        only := (honly.mono (by simp)).trans (hstore.mono (by simp))
        rest := fun j hj hji =>
          (entry_store64_of_ne (Ne.symm hji)).trans (honly.entry_eq hp40 hpc hj)
        leads := entry_store64_self hlt
        blank := fun j hj => (hstore.entry_eq hc40 (Ne.symm hpc) hj).trans (hblank j hj) }
    refine ensures_ok.mpr ⟨c, {c}, rfl, hnew.grown htakes, by simp, ?_⟩
    exact (hnew.tableAt_through []).2

/-- `get_pt_entry`: it arrives at the entry for the page. -/
theorem TableTree.getPtEntry (h : TableTree s root) (hs : s.Wf) (hv : ¬ HugeOnPath s.mem root v) :
    Ensures (getPtEntry s (frameAddr root) v true) (fun _ => s.pmm.freePages.card < 3)
      (fun r => ∃ pt N, r.1 = some (frameAddr pt + 8 * ptIndex v) ∧ TablesGrown s r.2 root N ∧
        N.card ≤ 3 ∧ tableAt r.2.mem root (tablePath v) = some pt) := by
  have hroot : tableAt s.mem root [] = some root := walk_nil 3 root
  unfold AcornOS.getPtEntry
  refine Ensures.bind ((h.nextTable (l := 2) hs hroot rfl hv
    (by simp [tablePath])).mono (fun _ he => by simp [he]) fun r hr => hr) ?_
  rintro ⟨a, s₁⟩ ⟨pdpt, N₁, rfl, hg₁, hn₁, hat₁⟩
  simp only at hg₁ hat₁ ⊢
  have hs₁ := hs.of_takes hg₁.takes
  have hcard₁ := hg₁.takes.card_add
  have hv₁ := hg₁.not_hugeOnPath hv
  refine Ensures.bind ((hg₁.tree.nextTable (l := 1) hs₁ hat₁ rfl hv₁
    (by simp [tablePath])).mono (fun _ he => ?_) fun r hr => hr) ?_
  · rw [he, Finset.card_empty] at hcard₁
    omega
  rintro ⟨a, s₂⟩ ⟨pd, N₂, rfl, hg₂, hn₂, hat₂⟩
  simp only at hg₂ hat₂ ⊢
  have hs₂ := hs₁.of_takes hg₂.takes
  have hcard₂ := hg₂.takes.card_add
  have hv₂ := hg₂.not_hugeOnPath hv₁
  refine Ensures.bind ((hg₂.tree.nextTable (l := 0) hs₂ hat₂ rfl hv₂
    (by simp [tablePath])).mono (fun _ he => ?_) fun r hr => hr) ?_
  · rw [he, Finset.card_empty] at hcard₂
    omega
  rintro ⟨a, s₃⟩ ⟨pt, N₃, rfl, hg₃, hn₃, hat₃⟩
  simp only at hg₃ hat₃ ⊢
  refine ensures_ok.mpr ⟨pt, N₁ ∪ N₂ ∪ N₃, ?_, (hg₁.trans hg₂).trans hg₃, ?_, hat₃⟩
  · rw [entryAddr_frameAddr (ptIndex_lt v)]
  · have := Finset.card_union_le (N₁ ∪ N₂) N₃
    have := Finset.card_union_le N₁ N₂
    omega

end Walking

/-! ### Writing the entry -/

/-- `PteSet s m root v p e`: in `m` the page table `p` for `v` has got the entry `e` for it. -/
structure PteSet (s : Machine) (m : Memory) (root v p e : Nat) : Prop where
  wf : s.Wf
  tree : TableTree s root
  reach : tableAt s.mem root (tablePath v) = some p
  lt : e < 2 ^ 64
  eq : m = store64 s.mem (frameAddr p + 8 * ptIndex v) e

namespace PteSet

variable {s : Machine} {m : Memory} {root v p e : Nat}

theorem mem (h : PteSet s m root v p e) : p ∈ root :: tables s.mem root :=
  mem_tables_of_tableAt (l := 0) h.reach rfl

theorem only (h : PteSet s m root v p e) : OnlyIn s.mem m {p} := by
  rw [h.eq]
  exact onlyIn_store64 (h.tree.lt h.wf h.mem) (ptIndex_lt v) e

/-- A page table is no table of tables, so those are as they were. -/
theorem entry_eq (h : PteSet s m root v p e) {l q j : Nat}
    (hq : (l, q) = (3, root) ∨ (l, q) ∈ tableNodes s.mem root) (hpos : 0 < l) (hj : j < 512) :
    entry m q j = entry s.mem q j := by
  have hqmem : q ∈ root :: tables s.mem root := by
    rcases hq with heq | hq
    · rw [(Prod.mk.inj heq).2]
      exact List.mem_cons_self
    · exact List.mem_cons_of_mem _ (List.mem_map.mpr ⟨_, hq, rfl⟩)
  refine h.only.entry_eq (h.tree.lt h.wf hqmem) ?_ hj
  rintro rfl
  exact absurd (h.tree.level_unique hq (mem_of_tableAt (l := 0) h.reach rfl)) hpos.ne'

theorem agrees (h : PteSet s m root v p e) :
    Agrees tableWidth (tableKids s.mem) (tableKids m) 3 root :=
  fun _ hx hpos _ hj => tableKids_congr (h.entry_eq hx hpos hj)

theorem tableAt_eq (h : PteSet s m root v p e) (is : List Nat) :
    tableAt m root is = tableAt s.mem root is :=
  walk_congr h.agrees

theorem tables_eq (h : PteSet s m root v p e) : tables m root = tables s.mem root := by
  rw [tables, tables, tableNodes, tableNodes, nodes_congr h.agrees]

theorem here (h : PteSet s m root v p e) : pte m root v = e := by
  rw [pte, h.tableAt_eq, h.reach, h.eq, Option.map_some, Option.getD_some]
  exact entry_store64_self h.lt

/-- Another page has another entry. -/
theorem entry_other (h : PteSet s m root v p e) {w q : Nat} (hw : path w ≠ path v)
    (hq : tableAt s.mem root (tablePath w) = some q) :
    entry m q (ptIndex w) = entry s.mem q (ptIndex w) := by
  by_cases hqp : q = p
  · subst hqp
    have hsame := h.tree.tablePath_eq hq h.reach
    rw [h.eq]
    refine entry_store64_of_ne fun hidx => hw ?_
    simp only [tablePath, List.cons.injEq, and_true] at hsame
    simp only [path, hsame, hidx]
  · exact h.only.entry_eq (h.tree.lt h.wf (mem_tables_of_tableAt (l := 0) hq rfl)) hqp (ptIndex_lt w)

theorem others (h : PteSet s m root v p e) {w : Nat} (hw : path w ≠ path v) :
    pte m root w = pte s.mem root w := by
  unfold pte
  rw [h.tableAt_eq]
  cases hq : tableAt s.mem root (tablePath w) with
  | none => rfl
  | some q =>
    rw [Option.map_some, Option.map_some, Option.getD_some, Option.getD_some]
    exact h.entry_other hw hq

theorem onPath (h : PteSet s m root v p e) {P : Nat → Nat → Prop} {w : Nat}
    (hw : OnPath P s.mem root w) : OnPath P m root w := by
  intro js j k q hpre hk hq hpres
  rw [h.tableAt_eq] at hq
  rw [h.entry_eq (mem_of_tableAt hq hk) (Nat.succ_pos k) (tablePath_lt j (hpre.mem (by simp)))]
    at hpres ⊢
  exact hw js j k q hpre hk hq hpres

theorem kept (h : PteSet s m root v p e) {w : Nat} (hw : path w ≠ path v) {x : Mapping}
    (hx : translate s.mem root w = some x) : translate m root w = some x := by
  refine translate_kept (fun js j q hpre hq _ => ?_) hx
  have hj := path_lt j (hpre.mem (by simp))
  have hlen := hpre.length_le
  simp only [List.length_append, path, List.length_cons, List.length_nil] at hlen
  by_cases hlast : js.length = 3
  · have hfull : js ++ [j] = tablePath w ++ [ptIndex w] :=
      hpre.eq_of_length (by simp [path, hlast])
    obtain ⟨rfl, hidx⟩ := List.append_inj hfull (show js.length = (tablePath w).length from hlast)
    obtain rfl := List.singleton_inj.mp hidx
    exact h.entry_other hw hq
  · exact h.entry_eq (l := 3 - js.length) (mem_of_tableAt hq (by omega)) (by omega) hj

end PteSet

/-- `PageMapped s t root v e N`: `v` has the entry `e`, with the new tables `N`, and nothing else about the
directory has changed. -/
structure PageMapped (s t : Machine) (root v e : Nat) (N : Finset Nat) : Prop where
  takes : Takes s.pmm t.pmm N
  few : N.card ≤ 3
  only : OnlyIn s.mem t.mem ({q | q ∈ root :: tables s.mem root} ∪ N)
  tree : TableTree t root
  mem : ∀ q, q ∈ tables t.mem root ↔ q ∈ tables s.mem root ∨ q ∈ N
  here : pte t.mem root v = e
  others : ∀ w, path w ≠ path v → pte t.mem root w = pte s.mem root w
  onPath : ∀ P, (∀ l, ∀ c < 2 ^ 40, P l (tableEntry (c * pageSize))) →
    ∀ w, OnPath P s.mem root w → OnPath P t.mem root w
  kept : ∀ w x, path w ≠ path v → translate s.mem root w = some x → translate t.mem root w = some x

theorem PageMapped.not_hugeOnPath {s t : Machine} {root v e w : Nat} {N : Finset Nat}
    (h : PageMapped s t root v e N) (hw : ¬ HugeOnPath s.mem root w) : ¬ HugeOnPath t.mem root w :=
  not_hugeOnPath_iff.mpr (h.onPath _ (fun l _ hc => not_mapsHuge_tableEntry l hc) w
    (not_hugeOnPath_iff.mp hw))

/-- Entries depend on the path only. -/
theorem pte_congr {m : Memory} {v w : Nat} (h : path v = path w) (root : Nat) :
    pte m root v = pte m root w := by
  simp only [path, List.cons.injEq, and_true] at h
  simp only [pte, tablePath, h]

theorem translate_path {m : Memory} {v w : Nat} (h : path v = path w) (root : Nat) :
    translate m root v = translate m root w := by
  simp only [path, List.cons.injEq, and_true] at h
  simp only [translate, h]

theorem hugeOnPath_congr {m : Memory} {v w : Nat} (h : path v = path w) (root : Nat) :
    HugeOnPath m root v ↔ HugeOnPath m root w := by
  simp only [path, List.cons.injEq, and_true] at h
  simp only [HugeOnPath, tablePath, h]

/-- **`map_page_in`** of a page whose walk meets no huge page. -/
theorem TableTree.mapPageIn {s : Machine} {root v f flags : Nat} (h : TableTree s root) (hs : s.Wf)
    (hv : ¬ HugeOnPath s.mem root v) (hf : f < 2 ^ 40) (hflags : flags % 2 = 1) :
    Ensures (mapPageIn s (frameAddr root) v (f * pageSize) flags)
      (fun _ => s.pmm.freePages.card < 3)
      (fun t => ∃ N, PageMapped s t root v (pageEntry (f * pageSize) flags) N) := by
  have halign : path (v / pageSize * pageSize) = path v := path_align v
  obtain ⟨hlt, -⟩ := pageEntry_spec hf hflags
  unfold AcornOS.mapPageIn
  rw [if_neg (hs.frameAddr_ne_zero (h.used root List.mem_cons_self).1), div_pageSize]
  refine Ensures.bind (h.getPtEntry hs (mt (hugeOnPath_congr halign root).mp hv)) ?_
  rintro ⟨a, t⟩ ⟨pt, N, rfl, hg, hfew, hat⟩
  simp only at hg hat ⊢
  have hset : PteSet t (store64 t.mem (frameAddr pt + 8 * ptIndex (v / pageSize * pageSize))
      (pageEntry (f * pageSize) flags)) root (v / pageSize * pageSize) pt
      (pageEntry (f * pageSize) flags) := ⟨hs.of_takes hg.takes, hg.tree, hat, hlt, rfl⟩
  generalize store64 t.mem (frameAddr pt + 8 * ptIndex (v / pageSize * pageSize))
    (pageEntry (f * pageSize) flags) = m at *
  refine ensures_ok.mpr ⟨N, hg.takes, hfew, hg.only.trans (hset.only.mono ?_), ⟨?_, ?_⟩, fun q => ?_,
    ?_, fun w hw => ?_, fun P hP w hw => hset.onPath (hg.onPath P hP w hw), fun w x hw hx => ?_⟩
  · rintro q rfl
    rcases List.mem_cons.mp hset.mem with rfl | hq
    · exact Or.inl List.mem_cons_self
    · exact ((hg.mem q).mp hq).imp (List.mem_cons_of_mem _) id
  · rw [hset.tables_eq]
    exact hg.tree.nodup
  · intro q hq
    rw [hset.tables_eq] at hq
    exact hg.tree.used q hq
  · rw [hset.tables_eq]
    exact hg.mem q
  · rw [← pte_congr halign]
    exact hset.here
  · rw [hset.others (halign ▸ hw), hg.pte]
  · exact hset.kept (halign ▸ hw) (hg.kept w x hx)

/-! ## 4. `get_physical_in`, and the law -/

section Reading

variable {s : Machine} {root p i l v : Nat} {is : List Nat}

/-- One level of `get_pt_entry` when it may not create tables. -/
theorem nextTable_lookup (hi : i < 512) (hhuge : present (entry s.mem p i) = true →
    mapsHuge l (entry s.mem p i) = false) :
    nextTable s (entryAddr (frameAddr p) i) false =
      .ok ((tableKids s.mem l p i).map frameAddr, s) := by
  unfold nextTable
  rw [load64_entryAddr hi]
  by_cases hpres : present (entry s.mem p i) = true
  · rw [if_pos hpres, tableKids_present hpres (hhuge hpres), physicalToVirtual_page]
    rfl
  · rw [if_neg hpres, tableKids_absent hpres]
    rfl

/-- **`get_physical_in`** looks at the entry for the address. -/
theorem getPhysicalIn_eq (hv : ¬ HugeOnPath s.mem root v) :
    getPhysicalIn s (frameAddr root) v = if present (pte s.mem root v) then
      frame (pte s.mem root v) * pageSize + v % pageSize else 0 := by
  have hread : ∀ {is i l p}, is ++ [i] <+: tablePath v → 3 = is.length + (l + 1) →
      tableAt s.mem root is = some p → nextTable s (entryAddr (frameAddr p) i) false =
        .ok ((tableAt s.mem root (is ++ [i])).map frameAddr, s) := by
    intro is i l p hpre hl hat
    have hi : i < 512 := tablePath_lt i (hpre.mem (by simp))
    rw [tableAt_snoc hat hl hi]
    exact nextTable_lookup hi (not_hugeOnPath_iff.mp hv is i l p hpre hl hat)
  have hnone : ∀ is js, tableAt s.mem root is = none → is ++ js = tablePath v →
      pte s.mem root v = 0 := by
    intro is js hat hjs
    have hend : tableAt s.mem root (tablePath v) = none := hjs ▸ walk_append_none js hat
    rw [pte, hend]
    rfl
  unfold getPhysicalIn getPhysicalOr getPtEntry
  have hroot : tableAt s.mem root [] = some root := walk_nil 3 root
  rw [hread (l := 2) (by simp [tablePath]) rfl hroot]
  cases h3 : tableAt s.mem root ([] ++ [pml4Index v]) with
  | none =>
    rw [hnone _ _ h3 rfl]
    rfl
  | some pdpt =>
    simp only [Option.map_some, bind, Except.bind]
    rw [hread (l := 1) (by simp [tablePath]) rfl h3]
    cases h2 : tableAt s.mem root ([] ++ [pml4Index v] ++ [pdptIndex v]) with
    | none =>
      rw [hnone _ _ h2 rfl]
      rfl
    | some pd =>
      simp only [Option.map_some]
      rw [hread (l := 0) (by simp [tablePath]) rfl h2]
      have hlast : ([] ++ [pml4Index v] ++ [pdptIndex v] ++ [pdIndex v] : List Nat) = tablePath v := rfl
      rw [hlast]
      cases h1 : tableAt s.mem root (tablePath v) with
      | none =>
        rw [hnone _ [] h1 (List.append_nil _)]
        rfl
      | some pt =>
        simp only [Option.map_some]
        rw [load64_entryAddr (ptIndex_lt v), pte, h1]
        rfl

/-- The processor finds what the entry says.  Of the permissions the last are those of the entry, the others
those of the tables on the way. -/
theorem translate_eq_small {m : Memory} (hv : ¬ HugeOnPath m root v) : ∃ bits : List (Bool × Bool),
    translate m root v = (if present (pte m root v) then
      some (.small (frame (pte m root v)) (bits ++ [permissions (pte m root v)])) else none) ∧
    bits.length = 3 ∧ (present (pte m root v) = true → ∀ P : Bool × Bool → Prop,
      OnPath (fun _ e => P (permissions e)) m root v → ∀ b ∈ bits, P b) := by
  have hroot : tableAt m root [] = some root := walk_nil 3 root
  -- a table is missing
  have hnone : ∀ js {is i l p}, tableAt m root is = some p → 3 = is.length + (l + 1) →
      (is ++ [i]) ++ js = tablePath v → lookup m p i = none → ∃ bits : List (Bool × Bool),
        none = (if present (pte m root v) then
          some (Mapping.small (frame (pte m root v)) (bits ++ [permissions (pte m root v)])) else none) ∧
        bits.length = 3 ∧ (present (pte m root v) = true → ∀ P : Bool × Bool → Prop,
          OnPath (fun _ e => P (permissions e)) m root v → ∀ b ∈ bits, P b) := by
    intro js is i l p hat hl hjs he
    have hi : i < 512 := tablePath_lt i (List.IsPrefix.mem (by simp) ⟨js, hjs⟩)
    have hend := tableAt_snoc hat hl hi
    rw [tableKids_absent (lookup_eq_none.mp he)] at hend
    have hpath : tableAt m root (tablePath v) = none := hjs ▸ walk_append_none js hend
    have hpte : pte m root v = 0 := by
      rw [pte, hpath]
      rfl
    refine ⟨List.replicate 3 (false, false), ?_, rfl, fun hpres => ?_⟩
    · rw [hpte]
      rfl
    · rw [hpte] at hpres
      cases hpres
  have hnext : ∀ js {is i l p e}, tableAt m root is = some p → 3 = is.length + (l + 1) →
      (is ++ [i]) ++ js = tablePath v → lookup m p i = some e →
      tableAt m root (is ++ [i]) = some (frame e) ∧ mapsHuge (l + 1) e = false ∧
        ∀ P : Bool × Bool → Prop, OnPath (fun _ e => P (permissions e)) m root v → P (permissions e) := by
    intro js is i l p e hat hl hjs he
    obtain ⟨hpres, rfl⟩ := lookup_eq_some.mp he
    have hpre : is ++ [i] <+: tablePath v := ⟨js, hjs⟩
    have hi : i < 512 := tablePath_lt i (hpre.mem (by simp))
    have hhuge := not_hugeOnPath_iff.mp hv is i l p hpre hl hat hpres
    rw [tableAt_snoc hat hl hi, tableKids_present hpres hhuge]
    exact ⟨rfl, hhuge, fun P hP => hP is i l p hpre hl hat hpres⟩
  unfold translate
  cases h4 : lookup m root (pml4Index v) with
  | none => exact hnone [pdptIndex v, pdIndex v] (l := 2) hroot rfl rfl h4
  | some e4 =>
    obtain ⟨hat3, -, hp4⟩ := hnext [pdptIndex v, pdIndex v] (l := 2) hroot rfl rfl h4
    rw [Option.bind_some]
    cases h3 : lookup m (frame e4) (pdptIndex v) with
    | none => exact hnone [pdIndex v] (l := 1) hat3 rfl rfl h3
    | some e3 =>
      obtain ⟨hat2, hhuge3, hp3⟩ := hnext [pdIndex v] (l := 1) hat3 rfl rfl h3
      rw [Option.bind_some, if_neg (show ¬ hugePage e3 = true from Bool.eq_false_iff.mp hhuge3)]
      cases h2 : lookup m (frame e3) (pdIndex v) with
      | none => exact hnone [] (l := 0) hat2 rfl rfl h2
      | some e2 =>
        obtain ⟨hat1, hhuge2, hp2⟩ := hnext [] (l := 0) hat2 rfl rfl h2
        have hpte : pte m root v = entry m (frame e2) (ptIndex v) := by
          rw [pte, show tablePath v = [] ++ [pml4Index v] ++ [pdptIndex v] ++ [pdIndex v] from rfl,
            hat1]
          rfl
        rw [Option.bind_some, if_neg (show ¬ hugePage e2 = true from Bool.eq_false_iff.mp hhuge2), hpte,
          lookup]
        refine ⟨[permissions e4, permissions e3, permissions e2], ?_, rfl, fun _ P hP => ?_⟩
        · split
          · rfl
          · rfl
        · simp only [List.mem_cons, List.not_mem_nil, or_false]
          rintro b (rfl | rfl | rfl)
          · exact hp4 P hP
          · exact hp3 P hP
          · exact hp2 P hP

/-- Where no huge page is met, an address is mapped if its entry is present. -/
theorem translate_eq_none_iff {m : Memory} (hv : ¬ HugeOnPath m root v) :
    translate m root v = none ↔ present (pte m root v) = false := by
  obtain ⟨bits, heq, -⟩ := translate_eq_small hv
  rw [heq]
  cases present (pte m root v) with
  | true => exact iff_of_false (fun h => by cases h) (fun h => by cases h)
  | false => exact iff_of_true rfl rfl

/-- A huge page maps its addresses. -/
theorem not_hugeOnPath_of_unmapped {m : Memory} (h : translate m root v = none) :
    ¬ HugeOnPath m root v := by
  intro hhuge
  simp only [HugeOnPath, tablePath, meetsHuge, mapsHuge, Bool.and_eq_true, Bool.or_eq_true, bne_self_eq_false,
    Bool.false_eq_true, false_and, false_or, or_false] at hhuge
  obtain ⟨h4, h3, hhuge⟩ := hhuge
  rw [translate, lookup_eq_some.mpr ⟨h4, rfl⟩, Option.bind_some, lookup_eq_some.mpr ⟨h3, rfl⟩,
    Option.bind_some] at h
  split at h
  · cases h
  · rename_i hsmall
    obtain ⟨h2, -, hlarge⟩ := hhuge.resolve_left fun hgiant => hsmall hgiant.2
    rw [lookup_eq_some.mpr ⟨h2, rfl⟩, Option.bind_some, if_pos hlarge] at h
    cases h

/-- The tables on the way let a program through. -/
theorem translate_eq_pte {m : Memory} (hv : ¬ HugeOnPath m root v)
    (hopen : OnPath (fun _ e => permissions e = (true, true)) m root v) :
    translate m root v = if present (pte m root v) then some (.small (frame (pte m root v))
      [(true, true), (true, true), (true, true), permissions (pte m root v)]) else none := by
  obtain ⟨bits, heq, hlen, hbits⟩ := translate_eq_small hv
  rw [heq]
  by_cases hpres : present (pte m root v) = true
  · have hall := hbits hpres (fun b => b = (true, true)) hopen
    rw [List.eq_replicate_iff.mpr ⟨hlen, hall⟩]
    rfl
  · rw [if_neg hpres, if_neg hpres]

/-- **Every other address is where it was**, mapped or not. -/
theorem PageMapped.translate_eq {t : Machine} {e w : Nat} {N : Finset Nat} (h : PageMapped s t root v e N)
    (hw : path w ≠ path v) : translate t.mem root w = translate s.mem root w := by
  cases hx : translate s.mem root w with
  | some x => exact h.kept w x hw hx
  | none =>
    have hplain := not_hugeOnPath_of_unmapped hx
    rw [translate_eq_none_iff (h.not_hugeOnPath hplain), h.others w hw]
    exact (translate_eq_none_iff hplain).mp hx

end Reading

/-- **The map/lookup law.**  `map_page_in` of a page whose walk meets no huge page fails only if the
tables it needs cannot be had.  Otherwise

* the page is found where it was mapped,
* every address that differs from it in the bits 47 to 12 is found where it was before,
* the tables still form an unshared tree of used frames, and
* the new ones are frames that `pmm_alloc` has handed out. -/
theorem map_lookup_law (s : Machine) (root vaddr paddr flags : Nat) (hs : s.Wf)
    (htree : TableTree s root) (hv : ¬ HugeOnPath s.mem root vaddr) (hp : paddr < 2 ^ 52)
    (hflags : flags % 2 = 1) :
    Ensures (mapPageIn s (frameAddr root) vaddr paddr flags) (fun _ => s.pmm.freePages.card < 3)
      (fun t =>
        (∀ v, v / pageSize = vaddr / pageSize →
          getPhysicalIn t (frameAddr root) v = paddr / pageSize * pageSize + v % pageSize) ∧
        (∀ v, ¬ HugeOnPath s.mem root v → v / pageSize % 2 ^ 36 ≠ vaddr / pageSize % 2 ^ 36 →
          getPhysicalIn t (frameAddr root) v = getPhysicalIn s (frameAddr root) v) ∧
        TableTree t root ∧
        ∃ N, Takes s.pmm t.pmm N ∧
          ∀ q, q ∈ tables t.mem root ↔ q ∈ tables s.mem root ∨ q ∈ N) := by
  have hf : paddr / pageSize < 2 ^ 40 := by
    unfold pageSize
    omega
  obtain ⟨-, hpres, -, hframe⟩ := pageEntry_spec hf hflags
  have hpage : mapPageIn s (frameAddr root) vaddr paddr flags =
      mapPageIn s (frameAddr root) vaddr (paddr / pageSize * pageSize) flags := by
    unfold mapPageIn
    rw [div_pageSize]
  rw [hpage]
  refine (htree.mapPageIn hs hv hf hflags).mono (fun _ he => he) ?_
  rintro t ⟨N, hmap⟩
  refine ⟨fun v hv' => ?_, fun v hv' hne => ?_, hmap.tree, N, hmap.takes, hmap.mem⟩
  · have hsame : path v = path vaddr := path_of_page hv'
    rw [getPhysicalIn_eq (hmap.not_hugeOnPath (mt (hugeOnPath_congr hsame root).mp hv)),
      pte_congr hsame, hmap.here, if_pos hpres, hframe]
  · have hpath : path v ≠ path vaddr := mt path_eq_iff.mp hne
    rw [getPhysicalIn_eq (hmap.not_hugeOnPath hv'), getPhysicalIn_eq hv', hmap.others v hpath]

/-- A machine with empty memory: frame 1 is a blank PML4. -/
def blankMachine : Machine := ⟨fun _ => 0, onePageMachine.pmm⟩

theorem tableTree_blankMachine : TableTree blankMachine 1 := by
  have hnone : tables blankMachine.mem 1 = [] := by
    rw [tables, tableNodes, blankMachine, nodes_eq_nil fun i _ => tableKids_blank (entry_zero 1 i)]
    rfl
  refine ⟨?_, ?_⟩
  · rw [hnone]
    exact List.nodup_singleton 1
  · rw [hnone]
    intro q hq
    rw [List.mem_singleton.mp hq]
    exact used_onePageMachine (by decide)

theorem not_hugeOnPath_blankMachine (v : Nat) : ¬ HugeOnPath blankMachine.mem 1 v := by
  rw [HugeOnPath, tablePath, meetsHuge, blankMachine, entry_zero, show present 0 = false from rfl,
    Bool.false_and]
  exact Bool.false_ne_true

/-- A page of the kernel's half in a blank directory: three tables are new. -/
theorem map_lookup_law_blank : ∃ t,
    mapPageIn blankMachine (frameAddr 1) 0xFFFF900000400000 0x5123 3 = .ok t ∧
      getPhysicalIn t (frameAddr 1) 0xFFFF900000400ABC = 0x5ABC ∧
      getPhysicalIn t (frameAddr 1) 0x400000 = getPhysicalIn blankMachine (frameAddr 1) 0x400000 ∧
      TableTree t 1 := by
  obtain ⟨t, ht, hhere, hothers, htree, -⟩ := (map_lookup_law blankMachine 1 0xFFFF900000400000 0x5123 3
    ⟨onePageMachine_wf.pmm, onePageMachine_wf.ram⟩ tableTree_blankMachine (not_hugeOnPath_blankMachine _) (by decide)
    (by decide)).exists_ok (fun _ => by decide)
  exact ⟨t, ht, hhere _ (by decide), hothers _ (not_hugeOnPath_blankMachine _) (by decide), htree⟩

end AcornOS
