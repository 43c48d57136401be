/-
# Building an address space (`get_pt_entry`, `map_page_in`, `paging_clone_directory`)

A directory that a process owns grows one page at a time: `get_pt_entry` walks down from the PML4,
allocating the tables that are not there yet, and `map_page_in` writes the entry it arrives at.

* `Dir s root`: the directory is a tree of used frames without 2MB pages.  This is what makes
  writing an entry in place safe: a frame that were reachable twice would change in two places, and
  `get_pt_entry` takes a 2MB page for a page table.
* `Grown s t root N`: from `s` to `t` the frames `N` were taken for new tables of the directory, and
  nothing else about it has changed.
* `mapPageIn_spec`: the page is mapped, every other page stays mapped as it was, and the directory's
  frames are the old ones, the new tables and the page.
* `getPhysicalOr_eq`, `readByte_eq`: `get_physical_in` and the processor find the page that was
  mapped.
* `directory_balance`: what is built in this way, or by copying, is given back by
  `paging_free_directory`, no more and no less.
-/
import AcornOS.Arch.DeepCopy

namespace AcornOS

open Lib
open scoped List

/-! ## 1. Directories and paths -/

/-- A directory that can be written in place. -/
structure Dir (s : Machine) (root : Nat) : Prop where
  nodup : (root :: frames s.mem 4 root).Nodup
  used : DirUsed s root
  plain : ∀ p, (2, p) ∈ tree s.mem 4 root → ∀ i < 512, present (entry s.mem p i) = true →
    ¬ hugePage (entry s.mem p i) = true

/-- The indices a virtual address is walked with. -/
def path (v : Nat) : List Nat := [pml4Index v, pdptIndex v, pdIndex v, ptIndex v]

/-- Where a walk from a directory's root leads. -/
def follow (m : Memory) (root : Nat) (is : List Nat) : Option Nat :=
  walk levelWidth (kids m) 4 root is

/-- The frame a page is mapped to. -/
def leaf (m : Memory) (root v : Nat) : Option Nat := follow m root (path v)

section Paths

variable {s t : Machine} {root v w : Nat} {N : Finset Nat}

/-- Different pages of the lower half have different paths. -/
theorem path_inj (hv : LowerHalf v) (hw : LowerHalf w) (h : path v = path w) :
    v / pageSize = w / pageSize := by
  unfold LowerHalf at hv hw
  simp only [path, List.cons.injEq, and_true, pml4Index, pdptIndex, pdIndex, ptIndex] at h
  unfold pageSize
  omega

/-- Aligning an address does not change its path. -/
theorem path_align (v : Nat) : path (v / pageSize * pageSize) = path v := by
  unfold path pml4Index pdptIndex pdIndex ptIndex pageSize
  simp only [List.cons.injEq, and_true]
  omega

/-- A walk looks at the low 48 bits of an address. -/
theorem path_mod (v : Nat) : path (v % 2 ^ 48) = path v := by
  unfold path pml4Index pdptIndex pdIndex ptIndex
  simp only [List.cons.injEq, and_true]
  omega

/-- The addresses of a page have one path. -/
theorem path_of_page (h : v / pageSize = w / pageSize) : path v = path w := by
  rw [← path_align v, h, path_align]

theorem Dir.root_lt (h : Dir s root) (hs : s.Wf) : root < 2 ^ 40 :=
  hs.lt_of_used (h.used root (Or.inl rfl))

/-- What a walk leads to is the root or one of the directory's frames. -/
theorem mem_of_follow {m : Memory} {is : List Nat} {l p : Nat} (h : follow m root is = some p)
    (hl : 4 = is.length + l) : (l, p) = (4, root) ∨ (l, p) ∈ tree m 4 root := by
  cases is with
  | nil =>
    rw [follow, walk_nil] at h
    simp only [List.length_nil, Nat.zero_add] at hl
    exact Or.inl (by rw [← hl, Option.some.inj h])
  | cons i is => exact Or.inr (mem_nodes_of_walk (by simp) h hl)

/-- The end of a full path is a leaf of the tree. -/
theorem mem_tree_of_follow {m : Memory} {is : List Nat} {f : Nat} (h : follow m root is = some f)
    (his : is.length = 4) : (0, f) ∈ tree m 4 root := by
  rcases mem_of_follow (l := 0) h his.symm with heq | hmem
  · cases (Prod.mk.inj heq).1
  · exact hmem

theorem mem_frames_of_follow {m : Memory} {is : List Nat} {l p : Nat} (h : follow m root is = some p)
    (hl : 4 = is.length + l) : p = root ∨ p ∈ frames m 4 root := by
  rcases mem_of_follow h hl with heq | hmem
  · exact Or.inl (Prod.mk.inj heq).2
  · exact Or.inr (List.mem_map.mpr ⟨_, hmem, rfl⟩)

/-- A mapped page is one of the directory's frames. -/
theorem mem_frames_of_leaf {m : Memory} {f : Nat} (h : leaf m root v = some f) :
    f ∈ frames m 4 root :=
  List.mem_map.mpr ⟨_, mem_tree_of_follow h rfl, rfl⟩

theorem leaf_split {m : Memory} (root v : Nat) :
    ∃ rest, frames m 4 root ~ (leaf m root v).toList ++ rest := by
  cases hleaf : leaf m root v with
  | none => exact ⟨frames m 4 root, List.Perm.refl _⟩
  | some g => exact ⟨_, List.perm_cons_erase (mem_frames_of_leaf hleaf)⟩

/-- A frame is in the tree once, so a page is not a table as well. -/
theorem Dir.leaf_ne_table {is js : List Nat} {l f p : Nat} (h : Dir s root)
    (hf : follow s.mem root is = some f) (his : is.length = 4)
    (hp : follow s.mem root js = some p) (hl : 4 = js.length + l) (hl0 : 0 < l) : f ≠ p := by
  rintro rfl
  have hmem := mem_tree_of_follow hf his
  rcases mem_of_follow hp hl with heq | hp
  · rw [(Prod.mk.inj heq).2] at hmem
    exact (List.nodup_cons.mp h.nodup).1 (List.mem_map.mpr ⟨_, hmem, rfl⟩)
  · have heq := List.inj_on_of_nodup_map (List.nodup_cons.mp h.nodup).2 hmem hp rfl
    exact hl0.ne (Prod.mk.inj heq).1

/-- Different pages are different frames. -/
theorem Dir.leaf_inj {f : Nat} (h : Dir s root) (hv : LowerHalf v) (hw : LowerHalf w)
    (hleaf : leaf s.mem root v = some f) (hleaf' : leaf s.mem root w = some f) :
    v / pageSize = w / pageSize :=
  path_inj hv hw (walk_inj (l := 0) (List.nodup_cons.mp h.nodup).2 hleaf hleaf' rfl rfl)

/-- A directory is not affected by what happens to memory elsewhere. -/
theorem Dir.keep {X : Set Nat} (h : Dir s root) (hs : s.Wf) (honly : OnlyIn s.mem t.mem X)
    (hX : ∀ q, q = root ∨ q ∈ frames s.mem 4 root → q ∉ X)
    (hused : ∀ q, q = root ∨ q ∈ frames s.mem 4 root → t.pmm.Used q) :
    tree t.mem 4 root = tree s.mem 4 root ∧ Dir t root := by
  have htree : tree t.mem 4 root = tree s.mem 4 root :=
    honly.tree_eq (h.root_lt hs) (hX root (Or.inl rfl)) fun q hq => hX q (Or.inr hq)
  have hframes : frames t.mem 4 root = frames s.mem 4 root := congrArg _ htree
  refine ⟨htree, ⟨?_, ?_, ?_⟩⟩
  · rw [hframes]
    exact h.nodup
  · intro q hq
    rw [hframes] at hq
    exact hused q hq
  · intro p hp i hi
    rw [htree] at hp
    have hmem : p ∈ frames s.mem 4 root := List.mem_map.mpr ⟨_, hp, rfl⟩
    rw [honly.entry_eq (frames_lt hmem) (hX p (Or.inr hmem)) hi]
    exact h.plain p hp i hi

/-- A directory in use is not where a frame is taken. -/
theorem Dir.ne_taken {pm : Pmm} {c : Nat} (h : Dir s root) (htakes : Takes s.pmm pm {c}) :
    ∀ q, q = root ∨ q ∈ frames s.mem 4 root → q ≠ c :=
  fun q hq => (h.used q hq).ne_taken htakes

/-- Taking a frame and writing to it leaves a directory as it is. -/
theorem Dir.keep_taken {pm : Pmm} {c : Nat} {m : Memory} (h : Dir s root) (hs : s.Wf)
    (htakes : Takes s.pmm pm {c}) (honly : OnlyIn s.mem m {c}) :
    tree m 4 root = tree s.mem 4 root ∧ Dir ⟨m, pm⟩ root :=
  h.keep (t := ⟨m, pm⟩) hs honly (h.ne_taken htakes) fun q hq => (h.used q hq).of_takes htakes

/-- Writing to one of its pages leaves the entries of its tables as they are. -/
theorem Dir.table_entry {f j : Nat} {m : Memory} {x : Nat × Nat} (h : Dir s root) (hs : s.Wf)
    (hleaf : leaf s.mem root v = some f) (honly : OnlyIn s.mem m {f})
    (hx : x = (4, root) ∨ x ∈ tree s.mem 4 root) (hpos : 0 < x.1) (hj : j < 512) :
    entry m x.2 j = entry s.mem x.2 j := by
  have hf : (0, f) ∈ tree s.mem 4 root := mem_tree_of_follow hleaf rfl
  rcases hx with rfl | hx
  · refine honly.entry_eq (h.root_lt hs) ?_ hj
    rintro rfl
    exact (List.nodup_cons.mp h.nodup).1 (List.mem_map.mpr ⟨_, hf, rfl⟩)
  · refine honly.entry_eq (frames_lt (List.mem_map.mpr ⟨x, hx, rfl⟩)) (fun hxf => ?_) hj
    -- a frame is in the tree once, so the page is not a table as well
    have heq := List.inj_on_of_nodup_map (List.nodup_cons.mp h.nodup).2 hx hf hxf
    rw [heq] at hpos
    exact Nat.lt_irrefl 0 hpos

section Page

variable {f : Nat} {m : Memory}

theorem Dir.agrees_page (h : Dir s root) (hs : s.Wf) (hleaf : leaf s.mem root v = some f)
    (honly : OnlyIn s.mem m {f}) : Agrees levelWidth (kids s.mem) (kids m) 4 root :=
  fun _ hx hpos _ hj =>
    kids_congr (h.table_entry hs hleaf honly hx hpos (hj.trans_le (levelWidth_le _)))

/-- Nor is a directory affected by what is written to one of its pages, ... -/
theorem Dir.keep_page (h : Dir s root) (hs : s.Wf) (hleaf : leaf s.mem root v = some f)
    (honly : OnlyIn s.mem m {f}) :
    tree m 4 root = tree s.mem 4 root ∧ Dir ⟨m, s.pmm⟩ root := by
  have htree : tree m 4 root = tree s.mem 4 root := nodes_congr (h.agrees_page hs hleaf honly)
  have hframes : frames m 4 root = frames s.mem 4 root := congrArg _ htree
  refine ⟨htree, ⟨?_, ?_, ?_⟩⟩
  · rw [hframes]
    exact h.nodup
  · intro q hq
    rw [hframes] at hq
    exact h.used q hq
  · intro p hp i hi
    rw [htree] at hp
    rw [h.table_entry hs hleaf honly (Or.inr hp) Nat.two_pos hi]
    exact h.plain p hp i hi

/-- ... nor is where its paths lead. -/
theorem Dir.follow_page (h : Dir s root) (hs : s.Wf) (hleaf : leaf s.mem root v = some f)
    (honly : OnlyIn s.mem m {f}) (is : List Nat) : follow m root is = follow s.mem root is :=
  walk_congr (h.agrees_page hs hleaf honly)

end Page

end Paths

/-! ## 2. Growing a directory by empty tables -/

/-- The tables of level `l` have no entry with the page size bit. -/
def Bare (l : Nat) (m : Memory) (root : Nat) : Prop :=
  ∀ p, (l, p) ∈ tree m 4 root → ∀ i < 512, present (entry m p i) = true →
    ¬ hugePage (entry m p i) = true

theorem Bare.write_page {s : Machine} {m : Memory} {root v f l : Nat} (h : Bare l s.mem root)
    (hdir : Dir s root) (hs : s.Wf) (hleaf : leaf s.mem root v = some f)
    (honly : OnlyIn s.mem m {f}) (hl : 0 < l) : Bare l m root := by
  intro p hp i hi
  rw [(hdir.keep_page hs hleaf honly).1] at hp
  rw [hdir.table_entry hs hleaf honly (Or.inr hp) hl hi]
  exact h p hp i hi

/-- The bytes of the directory's pages are the same. -/
def DataKept (m m' : Memory) (root : Nat) : Prop :=
  ∀ is f, is.length = 4 → follow m root is = some f →
    ∀ k < 4096, m' (frameAddr f + k) = m (frameAddr f + k)

/-- Writing to a table of a directory, and to frames that it does not have, keeps its data. -/
theorem Dir.dataKept {s : Machine} {m : Memory} {root l p : Nat} {js : List Nat} {X : Set Nat}
    (h : Dir s root) (hp : follow s.mem root js = some p) (hl : 4 = js.length + l) (hl0 : 0 < l)
    (honly : OnlyIn s.mem m X) (hX : ∀ q ∈ frames s.mem 4 root, q ≠ p → q ∉ X) :
    DataKept s.mem m root := by
  intro is f his hf k hk
  have hmem : f ∈ frames s.mem 4 root := List.mem_map.mpr ⟨_, mem_tree_of_follow hf his, rfl⟩
  exact honly f (frames_lt hmem) (hX f hmem (h.leaf_ne_table hf his hp hl hl0)) k hk

/-- `Grown s t root N`: the directory has the new, empty tables `N`. -/
structure Grown (s t : Machine) (root : Nat) (N : Finset Nat) : Prop where
  takes : Takes s.pmm t.pmm N
  only : OnlyIn s.mem t.mem ({q | q ∈ root :: frames s.mem 4 root} ∪ N)
  dir : Dir t root
  mem : ∀ q, q ∈ frames t.mem 4 root ↔ q ∈ frames s.mem 4 root ∨ q ∈ N
  leaves : ∀ is, is.length = 4 → follow t.mem root is = follow s.mem root is
  upper : ∀ i, 256 ≤ i → i < 512 → entry t.mem root i = entry s.mem root i
  bare : ∀ l, Bare l s.mem root → Bare l t.mem root
  data : DataKept s.mem t.mem root

namespace Grown

variable {s t u : Machine} {root : Nat} {N N' : Finset Nat}

theorem refl (h : Dir s root) : Grown s s root ∅ :=
  ⟨Takes.refl _, OnlyIn.refl _ _, h, by simp, fun _ _ => rfl, fun _ _ _ => rfl, fun _ hl => hl,
    fun _ _ _ _ _ _ => rfl⟩

theorem trans (h : Grown s t root N) (h' : Grown t u root N') : Grown s u root (N ∪ N') where
  takes := h.takes.trans h'.takes
  only := h.only.grow h'.only fun _ => root_or_mem fun q => (h.mem q).mp
  dir := h'.dir
  mem q := by rw [h'.mem, h.mem, Finset.mem_union, or_assoc]
  leaves is hlen := (h'.leaves is hlen).trans (h.leaves is hlen)
  upper i hlo hhi := (h'.upper i hlo hhi).trans (h.upper i hlo hhi)
  bare l hl := h'.bare l (h.bare l hl)
  data is f hlen hf k hk := by
    have hf' : follow t.mem root is = some f := (h.leaves is hlen).trans hf
    exact (h'.data is f hlen hf' k hk).trans (h.data is f hlen hf k hk)

/-- The frames of the grown directory, as a list. -/
theorem perm (h : Grown s t root N) (hs : Dir s root) :
    frames t.mem 4 root ~ N.toList ++ frames s.mem 4 root := by
  have hnodup : (N.toList ++ frames s.mem 4 root).Nodup := by
    refine List.nodup_append.mpr ⟨N.nodup_toList, (List.nodup_cons.mp hs.nodup).2, ?_⟩
    rintro q hq r hr rfl
    exact h.takes.notMem_of_test (hs.used q (Or.inr hr)).2 (Finset.mem_toList.mp hq)
  refine (List.perm_ext_iff_of_nodup (List.nodup_cons.mp h.dir.nodup).2 hnodup).mpr fun q => ?_
  rw [h.mem, List.mem_append, Finset.mem_toList, or_comm]

end Grown

/-! ## 3. Writing an entry of a directory -/

section Writing

variable {s : Machine} {m : Memory} {root p i l : Nat} {is : List Nat} {X : Set Nat}

/-- Writing entry `i` of the table `p` that the indices `is` lead to is a rewriting of the tree
(`Lib/Radix.lean`): fresh frames may change as well, the directory's other entries do not. -/
theorem Dir.rewrites (h : Dir s root) (hs : s.Wf) (hfollow : follow s.mem root is = some p)
    (hl : 4 = is.length + (l + 1)) (hi : i < levelWidth (l + 1)) (honly : OnlyIn s.mem m X)
    (hX : ∀ q, q = root ∨ q ∈ frames s.mem 4 root → q ≠ p → q ∉ X)
    (hrest : ∀ j < 512, j ≠ i → entry m p j = entry s.mem p j) :
    Rewrites levelWidth (kids s.mem) (kids m) 4 root is l p i := by
  refine ⟨hl, hfollow, hi, h.nodup, fun x hx _ j hj hne => kids_congr ?_⟩
  have hj512 : j < 512 := hj.trans_le (levelWidth_le _)
  have hxmem : x.2 = root ∨ x.2 ∈ frames s.mem 4 root := by
    rcases hx with rfl | hx
    · exact Or.inl rfl
    · exact Or.inr (List.mem_map.mpr ⟨x, hx, rfl⟩)
  by_cases hxp : x.2 = p
  · rw [hxp]
    exact hrest j hj512 fun hji => hne ⟨hxp, hji⟩
  · exact honly.entry_eq (hs.lt_of_used (h.used _ hxmem)) (hX _ hxmem hxp) hj512

/-- The root is no frame below itself. -/
theorem Dir.level_root (h : Dir s root) (hfollow : follow s.mem root is = some root)
    (hl : 4 = is.length + l) : l = 4 := by
  rcases mem_of_follow hfollow hl with heq | hmem
  · exact (Prod.mk.inj heq).1
  · exact absurd (List.mem_map.mpr ⟨_, hmem, rfl⟩) (List.nodup_cons.mp h.nodup).1

/-- Writing an entry of the lower half leaves the upper half alone. -/
theorem Dir.upper_eq (h : Dir s root) (hs : s.Wf) (hfollow : follow s.mem root is = some p)
    (hl : 4 = is.length + (l + 1)) (hi : i < levelWidth (l + 1)) (honly : OnlyIn s.mem m X)
    (hX : ∀ q, q = root ∨ q ∈ frames s.mem 4 root → q ≠ p → q ∉ X)
    (hrest : ∀ j < 512, j ≠ i → entry m p j = entry s.mem p j) {j : Nat} (hlo : 256 ≤ j)
    (hhi : j < 512) : entry m root j = entry s.mem root j := by
  by_cases hp : root = p
  · subst hp
    have hw : levelWidth (l + 1) = 256 := by rw [h.level_root hfollow hl]; rfl
    exact hrest j hhi (by omega)
  · exact honly.entry_eq (h.root_lt hs) (hX root (Or.inl rfl) hp) hhi

/-- Writing an entry without the page size bit brings none to the tables there are. -/
theorem Bare.write {k : Nat} (h : Bare k s.mem root) (honly : OnlyIn s.mem m X)
    (hX : ∀ q, q = root ∨ q ∈ frames s.mem 4 root → q ≠ p → q ∉ X)
    (hrest : ∀ j < 512, j ≠ i → entry m p j = entry s.mem p j)
    (hhuge : hugePage (entry m p i) = false) {q j : Nat} (hq : (k, q) ∈ tree s.mem 4 root)
    (hj : j < 512) (hpres : present (entry m q j) = true) : ¬ hugePage (entry m q j) = true := by
  have hqmem : q ∈ frames s.mem 4 root := List.mem_map.mpr ⟨_, hq, rfl⟩
  by_cases hqp : q = p
  · subst hqp
    by_cases hji : j = i
    · rw [hji, hhuge]
      simp
    · rw [hrest j hj hji] at hpres ⊢
      exact h q hq j hj hpres
  · rw [honly.entry_eq (frames_lt hqmem) (hX q (Or.inr hqmem) hqp) hj] at hpres ⊢
    exact h q hq j hj hpres

/-- **A new, empty table** where there was none. -/
theorem Dir.grow {pm : Pmm} {c : Nat} (h : Dir s root) (hs : s.Wf)
    (hfollow : follow s.mem root is = some p) (hl : 4 = is.length + (l + 1)) (hl0 : 0 < l)
    (hi : i < levelWidth (l + 1)) (habsent : ¬ present (entry s.mem p i) = true)
    (hc : c ∈ s.pmm.freePages) (htakes : Takes s.pmm pm {c})
    (honly : OnlyIn s.mem m ({p, c} : Set Nat))
    (hrest : ∀ j < 512, j ≠ i → entry m p j = entry s.mem p j)
    (hentry : entry m p i = tableEntry (c * pageSize)) (hblank : ∀ j < 512, entry m c j = 0) :
    Grown s ⟨m, pm⟩ root {c} ∧ follow m root (is ++ [i]) = some c := by
  have hi512 : i < 512 := hi.trans_le (levelWidth_le _)
  have hc40 := hs.lt_of_free hc
  have hcnot := h.ne_taken htakes
  have hX : ∀ q, q = root ∨ q ∈ frames s.mem 4 root → q ≠ p → q ∉ ({p, c} : Set Nat) := by
    rintro q hq hqp (hq' | hq')
    · exact hqp hq'
    · exact hcnot q hq hq'
  obtain ⟨-, hpres, hhuge, hframe⟩ := tableEntry_spec hc40
  have hold : kids s.mem (l + 1) p i = none := kids_absent habsent
  have hnew : kids m (l + 1) p i = some c := by
    rw [kids_owned (by rw [hentry]; exact hpres) (by rw [hentry, hhuge]; simp), hentry, hframe]
  have hempty : nodes levelWidth (kids m) l c = [] :=
    nodes_eq_nil fun j hj => kids_blank (hblank j (hj.trans_le (levelWidth_le _)))
  have hrew := h.rewrites hs hfollow hl hi honly hX hrest
  -- the tree has one more node
  obtain ⟨rest, htree, htree'⟩ := hrew.replace_child
  rw [hold, subtree_none, List.nil_append] at htree
  rw [hnew, subtree_some, hempty, List.nil_append, List.singleton_append] at htree'
  have hperm : tree m 4 root ~ (l, c) :: tree s.mem 4 root := htree'.trans (htree.symm.cons _)
  have hframes : frames m 4 root ~ c :: frames s.mem 4 root := hperm.map Prod.snd
  have hpath : follow m root is = some p := hrew.walk_table.trans hfollow
  have hlast : ∀ js, follow m root (is ++ i :: js) = walk levelWidth (kids m) l c js := by
    intro js
    rw [follow, walk_append hpath hl, walk_cons hi, hnew, Option.bind_some]
  have hmem : ∀ q, q ∈ frames m 4 root ↔ q ∈ frames s.mem 4 root ∨ q ∈ ({c} : Finset Nat) := by
    intro q
    rw [hframes.mem_iff, List.mem_cons, Finset.mem_singleton, or_comm]
  have hbare : ∀ k, Bare k s.mem root → Bare k m root := by
    intro k hk q hq j hj hjpres
    rcases List.mem_cons.mp (hperm.mem_iff.mp hq) with heq | hq
    · rw [(Prod.mk.inj heq).2, hblank j hj] at hjpres
      cases hjpres
    · exact hk.write honly hX hrest (by rw [hentry, hhuge]) hq hj hjpres
  have hdata : DataKept s.mem m root :=
    h.dataKept hfollow hl (Nat.succ_pos l) honly fun q hq => hX q (Or.inr hq)
  refine ⟨⟨htakes, honly.mono ?_, ⟨?_, ?_, hbare 2 h.plain⟩, hmem, ?_, ?_, hbare, hdata⟩, ?_⟩
  · rintro q (rfl | rfl)
    · exact Or.inl (List.mem_cons.mpr (mem_frames_of_follow hfollow hl))
    · exact Or.inr (by simp)
  · have hswap : root :: frames m 4 root ~ c :: root :: frames s.mem 4 root :=
      (hframes.cons _).trans (List.Perm.swap _ _ _)
    rw [hswap.nodup_iff]
    refine List.nodup_cons.mpr ⟨fun hmem => ?_, h.nodup⟩
    exact hcnot c (List.mem_cons.mp hmem) rfl
  · intro q hq
    rcases hq with rfl | hq
    · exact (h.used q (Or.inl rfl)).of_takes htakes
    · rcases (hmem q).mp hq with hq | hq
      · exact (h.used q (Or.inr hq)).of_takes htakes
      · exact htakes.used_of_mem hq
  · intro js hjs
    by_cases hpre : is ++ [i] <+: js
    · -- a full path through the new table ends in it, as it ended at the missing entry before
      obtain ⟨k, rfl⟩ := hpre
      rw [List.append_assoc, List.singleton_append] at hjs ⊢
      have hold' : follow s.mem root (is ++ i :: k) = none := by
        rw [follow, walk_append hfollow hl, walk_cons hi, hold, Option.bind_none]
      dsimp only
      rw [hlast k, hold']
      simp only [List.length_append, List.length_cons] at hjs
      obtain ⟨l, rfl⟩ := Nat.exists_eq_succ_of_ne_zero hl0.ne'
      cases k with
      | nil =>
        simp only [List.length_nil] at hjs
        omega
      | cons j k =>
        rw [walk]
        split
        · rename_i hj
          rw [kids_blank (hblank j (hj.trans_le (levelWidth_le _))), Option.bind_none]
        · rfl
    · exact hrew.walk_other js hpre
  · exact fun j hlo hhi => h.upper_eq hs hfollow hl hi honly hX hrest hlo hhi
  · rw [hlast [], walk_nil]

/-- **A page**, where there may have been one before. -/
theorem Dir.setLeaf {e f : Nat} (h : Dir s root) (hs : s.Wf)
    (hfollow : follow s.mem root is = some p) (hl : 4 = is.length + 1) (hi : i < 512)
    (he : e < 2 ^ 64) (hpres : present e = true) (hhuge : hugePage e = false) (hframe : frame e = f)
    (hf : s.pmm.Used f) (hfnot : f ∉ root :: frames s.mem 4 root)
    (hm : m = store64 s.mem (frameAddr p + 8 * i) e) :
    OnlyIn s.mem m {q | q ∈ root :: frames s.mem 4 root} ∧ Dir ⟨m, s.pmm⟩ root ∧
      (∃ rest, frames s.mem 4 root ~ (follow s.mem root (is ++ [i])).toList ++ rest ∧
        frames m 4 root ~ f :: rest) ∧
      follow m root (is ++ [i]) = some f ∧
      (∀ js, js.length = 4 → js ≠ is ++ [i] → follow m root js = follow s.mem root js) ∧
      (∀ j, 256 ≤ j → j < 512 → entry m root j = entry s.mem root j) ∧
      (∀ k, 0 < k → Bare k s.mem root → Bare k m root) ∧ DataKept s.mem m root := by
  have hpmem := mem_frames_of_follow hfollow hl
  have hp40 := hs.lt_of_used (h.used p hpmem)
  have honly : OnlyIn s.mem m {p} := by
    rw [hm]
    exact onlyIn_store64 hp40 hi e
  have hrest : ∀ j < 512, j ≠ i → entry m p j = entry s.mem p j := by
    intro j _ hji
    rw [hm]
    exact entry_store64_of_ne (Ne.symm hji)
  have hentry : entry m p i = e := by
    rw [hm]
    exact entry_store64_self he
  have hX : ∀ q, q = root ∨ q ∈ frames s.mem 4 root → q ≠ p → q ∉ ({p} : Set Nat) :=
    fun q _ hqp hq => hqp hq
  have hrew := h.rewrites (l := 0) hs hfollow hl hi honly hX hrest
  have hnew : kids m 1 p i = some f := by
    rw [kids_owned (by rw [hentry]; exact hpres) (by simp), hentry, hframe]
  have hold : follow s.mem root (is ++ [i]) = kids s.mem 1 p i := by
    rw [follow, walk_append hfollow hl, walk_cons (n := 0) hi]
    cases kids s.mem 1 p i with
    | none => rfl
    | some g => rw [Option.bind_some, walk_nil]
  obtain ⟨rest, htree, htree'⟩ := hrew.replace_child
  rw [hnew, subtree_some, nodes_zero, List.nil_append, List.singleton_append] at htree'
  have hframes : frames s.mem 4 root ~ (kids s.mem 1 p i).toList ++ rest.map Prod.snd := by
    refine (htree.map Prod.snd).trans (List.Perm.of_eq ?_)
    rw [List.map_append]
    cases kids s.mem 1 p i <;> rfl
  have hframes' : frames m 4 root ~ f :: rest.map Prod.snd := htree'.map Prod.snd
  have hsub : ∀ q ∈ rest.map Prod.snd, q ∈ frames s.mem 4 root := fun q hq =>
    hframes.mem_iff.mpr (List.mem_append_right _ hq)
  have hbare : ∀ k, 0 < k → Bare k s.mem root → Bare k m root := by
    intro k hk0 hk q hq j hj hjpres
    refine hk.write honly hX hrest (by rw [hentry, hhuge]) ?_ hj hjpres
    rcases List.mem_cons.mp (htree'.mem_iff.mp hq) with heq | hq
    · exact absurd (Prod.mk.inj heq).1 hk0.ne'
    · exact htree.mem_iff.mpr (List.mem_append_right _ hq)
  refine ⟨honly.mono ?_, ⟨?_, ?_, hbare 2 (by decide) h.plain⟩,
    ⟨rest.map Prod.snd, ?_, hframes'⟩, ?_, ?_, ?_, hbare,
    h.dataKept (l := 1) hfollow hl Nat.one_pos honly fun q hq => hX q (Or.inr hq)⟩
  · rintro q rfl
    exact List.mem_cons.mpr hpmem
  · have hnodup : (root :: ((kids s.mem 1 p i).toList ++ rest.map Prod.snd)).Nodup :=
      (hframes.cons root).nodup_iff.mp h.nodup
    have hsublist : (root :: rest.map Prod.snd).Nodup :=
      hnodup.sublist ((List.sublist_append_right _ _).cons_cons root)
    have hswap : root :: frames m 4 root ~ f :: root :: rest.map Prod.snd :=
      (hframes'.cons _).trans (List.Perm.swap _ _ _)
    rw [hswap.nodup_iff]
    refine List.nodup_cons.mpr ⟨fun hmem => hfnot ?_, hsublist⟩
    rcases List.mem_cons.mp hmem with rfl | hmem
    · exact List.mem_cons_self
    · exact List.mem_cons_of_mem _ (hsub f hmem)
  · rintro q (rfl | hq)
    · exact h.used q (Or.inl rfl)
    · rcases List.mem_cons.mp (hframes'.mem_iff.mp hq) with rfl | hq
      · exact hf
      · exact h.used q (Or.inr (hsub q hq))
  · rw [hold]
    exact hframes
  · have hpath : follow m root is = some p := hrew.walk_table.trans hfollow
    rw [follow, walk_append hpath hl, walk_cons (n := 0) hi, hnew, Option.bind_some, walk_nil]
  · intro js hjs hne
    refine hrew.walk_other js fun hpre => hne ?_
    refine (hpre.eq_of_length ?_).symm
    rw [hjs, List.length_append, hl]
    rfl
  · exact fun j hlo hhi => h.upper_eq (l := 0) hs hfollow hl hi honly hX hrest hlo hhi

end Writing

/-! ## 4. `get_pt_entry` and `map_page_in` -/

section Walking

variable {s t : Machine} {root p i l v : Nat} {is : List Nat} {N : Finset Nat}

/-- `get_pt_entry` sees the path of an address only, ... -/
theorem getPtEntry_congr {w : Nat} (h : path v = path w) (pml4 : Nat) (create : Bool) :
    getPtEntry s pml4 v create = getPtEntry s pml4 w create := by
  simp only [path, List.cons.injEq, and_true] at h
  unfold getPtEntry
  rw [h.1, h.2.1, h.2.2.1, h.2.2.2]

/-- ... so the upper 16 bits do not matter. -/
theorem mapPageIn_mod (pml4 v paddr flags : Nat) :
    mapPageIn s pml4 (v % 2 ^ 48) paddr flags = mapPageIn s pml4 v paddr flags := by
  have hpath : path (v % 2 ^ 48 / pageSize * pageSize) = path (v / pageSize * pageSize) := by
    rw [path_align, path_align, path_mod]
  unfold mapPageIn
  dsimp only
  rw [getPtEntry_congr hpath]

theorem getPhysicalOr_mod (unmapped pml4 v : Nat) :
    getPhysicalOr unmapped s pml4 (v % 2 ^ 48) = getPhysicalOr unmapped s pml4 v := by
  have hmod : v % 2 ^ 48 % pageSize = v % pageSize := Nat.mod_mod_of_dvd v (by decide)
  unfold getPhysicalOr
  rw [getPtEntry_congr (path_mod v), hmod]

/-- One level of `get_pt_entry`: it arrives at the next table, taking at most one frame for it. -/
theorem nextTable_spec (h : Dir s root) (hs : s.Wf) (hfollow : follow s.mem root is = some p)
    (hl : 4 = is.length + (l + 1)) (hl0 : 0 < l) (hi : i < levelWidth (l + 1)) :
    Ensures (nextTable s (entryAddr (frameAddr p) i) true) (fun _ => s.pmm.freePages = ∅)
      (fun r => ∃ c N, r.1 = some (frameAddr c) ∧ Grown s r.2 root N ∧ N.card ≤ 1 ∧
        follow r.2.mem root (is ++ [i]) = some c) := by
  have hi512 : i < 512 := hi.trans_le (levelWidth_le _)
  have hpmem := mem_frames_of_follow hfollow hl
  have hp40 := hs.lt_of_used (h.used p hpmem)
  unfold nextTable
  rw [load64_entryAddr hi512]
  by_cases hpres : present (entry s.mem p i) = true
  · rw [if_pos hpres, physicalToVirtual_page]
    refine ensures_ok.mpr ⟨frame (entry s.mem p i), ∅, rfl, Grown.refl h, by simp, ?_⟩
    have hkid : kids s.mem (l + 1) p i = some (frame (entry s.mem p i)) := by
      refine kids_owned hpres fun hhuge => ?_
      rw [Bool.and_eq_true, beq_iff_eq] at hhuge
      -- only a PD could hold a 2MB page, and this directory has none
      rcases mem_of_follow hfollow hl with heq | hq
      · have := (Prod.mk.inj heq).1
        omega
      · rw [hhuge.1] at hq
        exact h.plain p hq i hi512 hpres hhuge.2
    dsimp only
    rw [follow, walk_append hfollow hl, walk_cons hi, hkid, Option.bind_some, walk_nil]
  · rw [if_neg hpres, if_pos rfl]
    refine Ensures.bind (allocTable_spec hs) ?_
    rintro ⟨a, t⟩ ⟨c, hc, rfl, htakes, honly, hblank⟩
    simp only at htakes honly hblank ⊢
    have hc40 := hs.lt_of_free hc
    have hpc : p ≠ c := (h.used p hpmem).ne_taken htakes
    have hlt := (tableEntry_spec hc40).1
    have hframe := (tableEntry_spec hc40).2.2.2
    rw [entryAddr_frameAddr hi512, virtualToPhysical_frameAddr hc40, load64_store64_self hlt, hframe,
      physicalToVirtual_page]
    have hstore := @onlyIn_store64 t.mem p i hp40 hi512 (tableEntry (c * pageSize))
    refine ensures_ok.mpr ⟨c, {c}, rfl, ?_⟩
    obtain ⟨hgrown, hend⟩ := h.grow hs hfollow hl hl0 hi hpres hc htakes
      ((honly.mono (by simp)).trans (hstore.mono (by simp)))
      (fun j hj hji => (entry_store64_of_ne (Ne.symm hji)).trans (honly.entry_eq hp40 hpc hj))
      (entry_store64_self hlt)
      (fun j hj => (hstore.entry_eq hc40 (Ne.symm hpc) hj).trans (hblank j hj))
    exact ⟨hgrown, by simp, hend⟩

/-- `get_pt_entry`: it arrives at the entry for the page, in a page table of the directory. -/
theorem getPtEntry_spec (h : Dir s root) (hs : s.Wf) (hv : LowerHalf v) :
    Ensures (getPtEntry s (frameAddr root) v true) (fun _ => s.pmm.freePages.card < 3)
      (fun r => ∃ pt N, r.1 = some (frameAddr pt + 8 * ptIndex v) ∧ Grown s r.2 root N ∧
        N.card ≤ 3 ∧
        follow r.2.mem root [pml4Index v, pdptIndex v, pdIndex v] = some pt) := by
  unfold getPtEntry
  refine Ensures.bind ((nextTable_spec (l := 3) h hs (walk_nil 4 root) rfl (by decide)
    (pml4Index_lt hv)).mono (fun _ he => by simp [he]) fun r hr => hr) ?_
  rintro ⟨a, s₁⟩ ⟨pdpt, N₁, rfl, hg₁, hn₁, hf₁⟩
  simp only at hg₁ hf₁ ⊢
  have hs₁ := hs.of_takes hg₁.takes
  have hcard₁ := hg₁.takes.card_add
  refine Ensures.bind ((nextTable_spec (l := 2) hg₁.dir hs₁ hf₁ rfl (by decide)
    (pdptIndex_lt v)).mono (fun _ he => ?_) fun r hr => hr) ?_
  · rw [he, Finset.card_empty] at hcard₁
    omega
  rintro ⟨a, s₂⟩ ⟨pd, N₂, rfl, hg₂, hn₂, hf₂⟩
  simp only at hg₂ hf₂ ⊢
  have hs₂ := hs₁.of_takes hg₂.takes
  have hcard₂ := hg₂.takes.card_add
  refine Ensures.bind ((nextTable_spec (l := 1) hg₂.dir hs₂ hf₂ rfl (by decide)
    (pdIndex_lt v)).mono (fun _ he => ?_) fun r hr => hr) ?_
  · rw [he, Finset.card_empty] at hcard₂
    omega
  rintro ⟨a, s₃⟩ ⟨pt, N₃, rfl, hg₃, hn₃, hf₃⟩
  simp only at hg₃ hf₃ ⊢
  refine ensures_ok.mpr ⟨pt, N₁ ∪ N₂ ∪ N₃, ?_, (hg₁.trans hg₂).trans hg₃, ?_, hf₃⟩
  · rw [entryAddr_frameAddr (ptIndex_lt v)]
  · have := Finset.card_union_le (N₁ ∪ N₂) N₃
    have := Finset.card_union_le N₁ N₂
    omega

/-- `Mapped s t root v f N`: the page at `v` of the directory is now frame `f`, with the new tables `N`,
and nothing else about the directory has changed. -/
structure Mapped (s t : Machine) (root v f : Nat) (N : Finset Nat) : Prop where
  takes : Takes s.pmm t.pmm N
  only : OnlyIn s.mem t.mem ({q | q ∈ root :: frames s.mem 4 root} ∪ N)
  dir : Dir t root
  frames : ∃ rest, frames s.mem 4 root ~ (leaf s.mem root v).toList ++ rest ∧
    frames t.mem 4 root ~ f :: N.toList ++ rest
  here : leaf t.mem root v = some f
  others : ∀ w, LowerHalf w → w / pageSize ≠ v / pageSize → leaf t.mem root w = leaf s.mem root w
  upper : ∀ i, 256 ≤ i → i < 512 → entry t.mem root i = entry s.mem root i
  bare : ∀ l, 0 < l → Bare l s.mem root → Bare l t.mem root
  data : DataKept s.mem t.mem root

/-- **`map_page_in`**, given a used frame that the directory does not have yet.  It fails only if the
three tables it may need cannot be had. -/
theorem mapPageIn_spec {f flags : Nat} (h : Dir s root) (hs : s.Wf) (hv : LowerHalf v)
    (hf : s.pmm.Used f) (hfnot : f ∉ root :: frames s.mem 4 root) (hflags : flags % 2 = 1) :
    Ensures (mapPageIn s (frameAddr root) v (f * pageSize) flags)
      (fun _ => s.pmm.freePages.card < 3)
      (fun t => ∃ N, N.card ≤ 3 ∧ Mapped s t root v f N) := by
  have hv' : LowerHalf (v / pageSize * pageSize) :=
    Nat.lt_of_le_of_lt (Nat.div_mul_le_self v pageSize) hv
  have hpath := path_align v
  unfold mapPageIn
  rw [if_neg (hs.frameAddr_ne_zero (h.used root (Or.inl rfl)).1), div_pageSize]
  refine Ensures.bind (getPtEntry_spec h hs hv') ?_
  rintro ⟨a, t⟩ ⟨pt, N, rfl, hg, hn, hend⟩
  simp only at hg hend ⊢
  have ht := hs.of_takes hg.takes
  have hft := hf.of_takes hg.takes
  obtain ⟨hlt, hpres, hhuge, hframe⟩ := pageEntry_spec (ht.lt_of_used hft) hflags
  have hfnot' : f ∉ root :: frames t.mem 4 root := by
    rw [List.mem_cons, hg.mem] at *
    rintro (hr | hr | hr)
    · exact hfnot (Or.inl hr)
    · exact hfnot (Or.inr hr)
    · exact hg.takes.notMem_of_test hf.2 hr
  obtain ⟨honly, hdir, ⟨rest, hframes, hframes'⟩, hhere, hothers, hupper, hbare, hdata⟩ :=
    hg.dir.setLeaf ht hend rfl (ptIndex_lt _) hlt hpres hhuge hframe hft hfnot' rfl
  refine ensures_ok.mpr ⟨N, hn, ?_⟩
  generalize store64 t.mem (frameAddr pt + 8 * ptIndex (v / pageSize * pageSize))
    (pageEntry (f * pageSize) flags) = m at *
  have hpath' : [pml4Index (v / pageSize * pageSize), pdptIndex (v / pageSize * pageSize),
      pdIndex (v / pageSize * pageSize)] ++ [ptIndex (v / pageSize * pageSize)] = path v := hpath
  rw [hpath'] at hframes hhere hothers
  have hleaf : leaf t.mem root v = leaf s.mem root v := hg.leaves (path v) rfl
  refine ⟨hg.takes, ?_, hdir, ?_, hhere, ?_, ?_, fun l hl0 hl => hbare l hl0 (hg.bare l hl), ?_⟩
  · refine hg.only.trans (honly.mono fun q hq => ?_)
    rcases List.mem_cons.mp hq with rfl | hq
    · exact Or.inl List.mem_cons_self
    · rcases (hg.mem q).mp hq with hq | hq
      · exact Or.inl (List.mem_cons_of_mem _ hq)
      · exact Or.inr hq
  · obtain ⟨rest', hsplit⟩ := @leaf_split s.mem root v
    refine ⟨rest', hsplit, hframes'.trans ?_⟩
    -- both sides, with the old page put back, are the frames before the entry was written
    have hgrown := hg.perm h
    have hcancel : (leaf s.mem root v).toList ++ rest ~
        (leaf s.mem root v).toList ++ (N.toList ++ rest') := by
      rw [← hleaf]
      refine hframes.symm.trans (hgrown.trans ?_)
      rw [hleaf]
      refine (hsplit.append_left _).trans ?_
      rw [← List.append_assoc, ← List.append_assoc]
      exact List.perm_append_comm.append_right _
    exact ((List.perm_append_left_iff _).mp hcancel).cons f
  · intro w hw hne
    refine (hothers (path w) rfl fun heq => hne (path_inj hw hv heq)).trans ?_
    exact hg.leaves (path w) rfl
  · exact fun i hlo hhi => (hupper i hlo hhi).trans (hg.upper i hlo hhi)
  · intro is g his hg' k hk
    exact (hdata is g his ((hg.leaves is his).trans hg') k hk).trans (hg.data is g his hg' k hk)

end Walking

/-! ### `get_physical_in`, and the processor -/

section Reading

variable {s : Machine} {m : Memory} {root p i l v : Nat} {is : List Nat}

/-- The four steps to a page of the lower half. -/
theorem leaf_eq_bind (m : Memory) (root : Nat) (hv : LowerHalf v) :
    leaf m root v = (kids m 4 root (pml4Index v)).bind fun pdpt =>
      (kids m 3 pdpt (pdptIndex v)).bind fun pd =>
      (kids m 2 pd (pdIndex v)).bind fun pt => kids m 1 pt (ptIndex v) := by
  unfold leaf follow path
  rw [walk_cons (n := 3) (pml4Index_lt hv)]
  refine congrArg _ (funext fun pdpt => ?_)
  rw [walk_cons (n := 2) (pdptIndex_lt v)]
  refine congrArg _ (funext fun pd => ?_)
  rw [walk_cons (n := 1) (pdIndex_lt v)]
  refine congrArg _ (funext fun pt => ?_)
  rw [walk_cons (n := 0) (ptIndex_lt v)]
  cases kids m 1 pt (ptIndex v) with
  | none => rfl
  | some f => rw [Option.bind_some, walk_nil]

/-- One level of `get_pt_entry` when it may not create tables. -/
theorem nextTable_read (hi : i < 512)
    (hplain : present (entry s.mem p i) = true → l = 2 → ¬ hugePage (entry s.mem p i) = true) :
    nextTable s (entryAddr (frameAddr p) i) false = .ok ((kids s.mem l p i).map frameAddr, s) := by
  unfold nextTable
  rw [load64_entryAddr hi]
  by_cases hpres : present (entry s.mem p i) = true
  · have hkid : kids s.mem l p i = some (frame (entry s.mem p i)) := by
      refine kids_owned hpres ?_
      rw [Bool.and_eq_true, beq_iff_eq]
      exact fun h => hplain hpres h.1 h.2
    rw [if_pos hpres, hkid, physicalToVirtual_page]
    rfl
  · rw [if_neg hpres, kids_absent hpres]
    rfl

/-- A table of level 2 is where a walk of two steps leads. -/
theorem mem_tree_of_kids {pdpt pd : Nat} (hv : LowerHalf v)
    (h4 : kids m 4 root (pml4Index v) = some pdpt) (h3 : kids m 3 pdpt (pdptIndex v) = some pd) :
    (3, pdpt) ∈ tree m 4 root ∧ (2, pd) ∈ tree m 4 root := by
  refine ⟨mem_nodes_of_kid (pml4Index_lt hv) h4 (Or.inl rfl), ?_⟩
  exact mem_nodes_of_kid (pml4Index_lt hv) h4
    (Or.inr (mem_nodes_of_kid (pdptIndex_lt v) h3 (Or.inl rfl)))

/-- **`get_physical_in`** is the walk to the page. -/
theorem getPhysicalOr_eq (unmapped : Nat) (h : Dir s root) (hv : LowerHalf v) :
    getPhysicalOr unmapped s (frameAddr root) v =
      (leaf s.mem root v).elim unmapped fun f => f * pageSize + v % pageSize := by
  have h512 : pml4Index v < 512 := (pml4Index_lt hv).trans_le (levelWidth_le _)
  unfold getPhysicalOr getPtEntry
  rw [leaf_eq_bind _ _ hv, nextTable_read (l := 4) h512 (by simp)]
  cases h4 : kids s.mem 4 root (pml4Index v) with
  | none => rfl
  | some pdpt =>
    simp only [Option.map_some, bind, Except.bind, Option.bind_some]
    rw [nextTable_read (l := 3) (pdptIndex_lt v) (by simp)]
    cases h3 : kids s.mem 3 pdpt (pdptIndex v) with
    | none => rfl
    | some pd =>
      simp only [Option.map_some, Option.bind_some]
      rw [nextTable_read (l := 2) (pdIndex_lt v) fun hpres _ =>
        h.plain pd (mem_tree_of_kids hv h4 h3).2 _ (pdIndex_lt v) hpres]
      cases h2 : kids s.mem 2 pd (pdIndex v) with
      | none => rfl
      | some pt =>
        simp only [Option.map_some, Option.bind_some]
        rw [load64_entryAddr (ptIndex_lt v)]
        by_cases hpres : present (entry s.mem pt (ptIndex v)) = true
        · rw [if_pos hpres, kids_owned hpres (by simp)]
          rfl
        · rw [if_neg hpres, kids_absent hpres]
          rfl

/-- What a program reads is what is in the page. -/
theorem readByte_eq (h2 : Bare 2 m root) (h3 : Bare 3 m root) (hv : LowerHalf v) :
    readByte m root v = (leaf m root v).map fun f => m (frameAddr f + v % 4096) := by
  have hlook : ∀ {l p i}, (∀ e, lookup m p i = some e → l = 2 → ¬ hugePage e = true) →
      kids m l p i = (lookup m p i).map frame := by
    intro l p i hplain
    cases he : lookup m p i with
    | none => exact kids_absent (lookup_eq_none.mp he)
    | some e => exact kids_of_lookup he (hplain e he)
  have hbare : ∀ {l p i e}, Bare l m root → (l, p) ∈ tree m 4 root → i < 512 →
      lookup m p i = some e → ¬ hugePage e = true := by
    intro l p i e hb hp hi he
    obtain ⟨hpres, rfl⟩ := lookup_eq_some.mp he
    exact hb p hp i hi hpres
  unfold readByte translate
  rw [leaf_eq_bind _ _ hv, @hlook 4 root _ (by simp)]
  cases h4e : lookup m root (pml4Index v) with
  | none => rfl
  | some e4 =>
    have hk4 := kids_of_lookup (l := 4) h4e (by simp)
    simp only [Option.map_some, Option.bind_some]
    rw [@hlook 3 (frame e4) _ (by simp)]
    cases h3e : lookup m (frame e4) (pdptIndex v) with
    | none => rfl
    | some e3 =>
      have hk3 := kids_of_lookup (l := 3) h3e (by simp)
      obtain ⟨hmem3, hmem2⟩ := mem_tree_of_kids hv hk4 hk3
      simp only [Option.map_some, Option.bind_some]
      rw [if_neg (hbare h3 hmem3 (pdptIndex_lt v) h3e),
        @hlook 2 (frame e3) _ fun e he _ => hbare h2 hmem2 (pdIndex_lt v) he]
      cases h2e : lookup m (frame e3) (pdIndex v) with
      | none => rfl
      | some e2 =>
        simp only [Option.map_some, Option.bind_some]
        rw [if_neg (hbare h2 hmem2 (pdIndex_lt v) h2e), @hlook 1 (frame e2) _ (by simp)]
        cases lookup m (frame e2) (ptIndex v) with
        | none => rfl
        | some e1 => rfl

end Reading
/-! ## 5. A copy of a directory is a directory -/

/-- No table of level 2 that is `p` or below it has an entry for a 2MB page. -/
def Plain (m : Memory) (n p : Nat) : Prop :=
  ∀ q, (2, q) = (n, p) ∨ (2, q) ∈ tree m n p → ∀ i < 512, present (entry m q i) = true →
    ¬ hugePage (entry m q i) = true

theorem Copied.plain {m m' : Memory} : ∀ {n P Q : Nat}, Copied m m' n P Q → Plain m n P →
    Plain m' n Q
  | 0, _, _, _, _ => by
    rintro q (hq | hq)
    · cases (Prod.mk.inj hq).1
    · cases hq
  | n + 1, P, Q, h, hplain => by
    rintro q (hq | hq) i hi hpres
    · obtain ⟨hn, rfl⟩ := Prod.mk.inj hq
      have hself : (2, P) = (n + 1, P) := by rw [hn]
      have hwidth : i < levelWidth (n + 1) := by rw [← hn]; exact hi
      have hlook : lookup m' q i = some (entry m' q i) := by rw [lookup, if_pos hpres]
      rcases (h i hwidth).lookup with ⟨-, hnone⟩ | ⟨e, he, -, -, hhuge⟩ | ⟨e, c, -, hcopy, hhuge, -⟩
      · rw [hlook] at hnone
        cases hnone
      · obtain ⟨hp, rfl⟩ := lookup_eq_some.mp he
        exact absurd hhuge (hplain P (Or.inl hself) i hi hp)
      · rw [hlook] at hcopy
        rw [Option.some.inj hcopy, hugePage_setFrame, hhuge hn.symm]
        decide
    · obtain ⟨j, hj, hmem⟩ := mem_upTo.mp hq
      obtain ⟨c, hc, hmem⟩ := mem_subtree.mp hmem
      rcases (h j hj).lookup with ⟨-, hnone⟩ | ⟨e, -, he, hl, hhuge⟩ |
        ⟨e, c', he, he', hhuge, hc', hcopy⟩
      · rw [kids_absent (lookup_eq_none.mp hnone)] at hc
        cases hc
      · obtain ⟨-, rfl⟩ := lookup_eq_some.mp he
        rw [kids_shared (by rw [hl, hhuge]; rfl)] at hc
        cases hc
      · have hkid := kids_of_lookup he fun hl => by rw [hhuge hl]; decide
        have hkid' := kids_of_lookup he' fun hl => by
          rw [hugePage_setFrame, hhuge hl]
          decide
        rw [hc, frame_setFrame hc'] at hkid'
        obtain rfl := Option.some.inj hkid'
        refine hcopy.plain (fun p hp => hplain p (Or.inr ?_)) q hmem i hi hpres
        exact mem_nodes_of_kid hj hkid hp

/-- A copied entry leads somewhere if and only if the original does. -/
theorem EntryCopied.kids_cases {m m' : Memory} {R : Nat → Nat → Prop} {n P Q i : Nat}
    (h : EntryCopied m R (n + 1) P i (entry m' Q i)) :
    (kids m (n + 1) P i = none ∧ kids m' (n + 1) Q i = none) ∨
    ∃ c c', kids m (n + 1) P i = some c ∧ kids m' (n + 1) Q i = some c' ∧ R c c' := by
  cases hkid : kids m (n + 1) P i with
  | none =>
    refine Or.inl ⟨rfl, ?_⟩
    have he := h.1 hkid
    split at he
    · unfold kids at hkid ⊢
      rw [he]
      exact hkid
    · exact kids_blank he
  | some c =>
    obtain ⟨c', hc', he, hR⟩ := h.2 c hkid
    exact Or.inr ⟨c, c', rfl, kids_setFrame hc' hkid he, hR⟩

/-- The same walks end in a copy as in the original. -/
theorem Copied.walk_eq_none {m m' : Memory} : ∀ {is : List Nat} {n P Q : Nat}, Copied m m' n P Q →
    (walk levelWidth (kids m') n Q is = none ↔ walk levelWidth (kids m) n P is = none)
  | [], n, P, Q, _ => by simp only [walk_nil, reduceCtorEq]
  | _ :: _, 0, _, _, _ => Iff.rfl
  | i :: is, n + 1, P, Q, h => by
    rw [walk, walk]
    split
    · rename_i hi
      rcases (h i hi).kids_cases with ⟨hkid, hkid'⟩ | ⟨c, c', hkid, hkid', hcopied⟩
      · rw [hkid, hkid']
        rfl
      · rw [hkid, hkid']
        exact hcopied.walk_eq_none
    · exact Iff.rfl

/-- A copy has as many frames as the original. -/
theorem Copied.length_frames {m m' : Memory} : ∀ {n P Q : Nat}, Copied m m' n P Q →
    (frames m' n Q).length = (frames m n P).length
  | 0, _, _, _ => rfl
  | n + 1, P, Q, h => by
    rw [frames, frames, List.length_map, List.length_map, tree, tree, nodes_succ, nodes_succ, upTo, upTo,
      List.length_flatMap, List.length_flatMap]
    refine congrArg List.sum (List.map_congr_left fun i hi => ?_)
    rcases (h i (List.mem_range.mp hi)).kids_cases with ⟨hkid, hkid'⟩ | ⟨c, c', hkid, hkid', hcopied⟩
    · rw [hkid, hkid']
      rfl
    · have ih := hcopied.length_frames
      rw [frames, frames, List.length_map, List.length_map] at ih
      rw [hkid, hkid', subtree_some, subtree_some, List.length_append, List.length_append]
      exact congrArg (· + 1) ih

/-- The child's directory can be written in place like the parent's. -/
theorem Forked.dir {s t : Machine} {src dst : Nat} {N : Finset Nat} (hsrc : Dir s src)
    (h : Forked s src t dst N) : Dir t dst := by
  have hmem : ∀ q, q = dst ∨ q ∈ frames t.mem 4 dst → q ∈ N := by
    intro q hq
    refine (h.mem q).mp ?_
    rw [List.mem_append, List.mem_singleton]
    exact hq.symm
  have hplain : Plain s.mem 4 src := by
    rintro q (hq | hq)
    · cases (Prod.mk.inj hq).1
    · exact hsrc.plain q hq
  exact ⟨(List.perm_append_singleton _ _).nodup_iff.mp h.nodup,
    fun q hq => h.takes.used_of_mem (hmem q hq), fun p hp => h.copied.plain hplain p (Or.inr hp)⟩

/-! ## 6. Building a directory and freeing it -/

/-- `Cloned s k t c`: between `s` and `t` frame `c` was made a PML4 with the upper half of `k` and no
lower half. -/
structure Cloned (s : Machine) (k : Nat) (t : Machine) (c : Nat) : Prop where
  takes : Takes s.pmm t.pmm {c}
  only : OnlyIn s.mem t.mem {c}
  dir : Dir t c
  frames : frames t.mem 4 c = []
  leaf : ∀ v, LowerHalf v → leaf t.mem c v = none
  upper : ∀ i, 256 ≤ i → i < 512 → entry t.mem c i = entry s.mem k i

/-- A blank table becomes a directory when the upper half is copied into it. -/
theorem Cloned.of_blank {s t : Machine} {k c : Nat} (hs : s.Wf) (hk : s.pmm.Used k)
    (htakes : Takes s.pmm t.pmm {c}) (honly : OnlyIn s.mem t.mem {c})
    (hblank : ∀ i < 512, entry t.mem c i = 0) :
    Cloned s k ⟨copyUpperHalf t.mem (frameAddr k) (frameAddr c), t.pmm⟩ c := by
  have hc := htakes.free (Finset.mem_singleton_self c)
  have hc40 := hs.lt_of_free hc
  have hk40 := hs.lt_of_used hk
  have hkc : k ≠ c := hk.ne_taken htakes
  obtain ⟨hupOnly, hlow, hup⟩ := @copyUpperHalf_spec t.mem k c hk40 hc40 hkc
  generalize copyUpperHalf t.mem (frameAddr k) (frameAddr c) = m at *
  have hkids : ∀ i < levelWidth 4, kids m 4 c i = none := fun i hi =>
    kids_blank ((hlow i hi).trans (hblank i (hi.trans_le (levelWidth_le _))))
  have htree : tree m 4 c = [] := nodes_eq_nil hkids
  have hframes : AcornOS.frames m 4 c = [] := congrArg _ htree
  refine ⟨htakes, honly.trans hupOnly, ⟨?_, ?_, ?_⟩, hframes, ?_, ?_⟩
  · rw [hframes]
    exact List.nodup_singleton c
  · rintro q (rfl | hq)
    · exact htakes.used_of_mem (Finset.mem_singleton_self q)
    · rw [hframes] at hq
      cases hq
  · intro p hp
    rw [htree] at hp
    cases hp
  · intro v hv
    rw [AcornOS.leaf, follow, path, walk_cons (pml4Index_lt hv), hkids _ (pml4Index_lt hv),
      Option.bind_none]
  · intro i hlo hhi
    obtain ⟨j, rfl⟩ := Nat.exists_eq_add_of_le hlo
    exact (hup j (by omega)).trans (honly.entry_eq hk40 hkc hhi)

/-- **`paging_clone_directory`.** -/
theorem pagingCloneDirectory_spec {s : Machine} {k : Nat} (hs : s.Wf) (hk : s.pmm.Used k) :
    Ensures (pagingCloneDirectory s (frameAddr k)) (fun _ => s.pmm.freePages = ∅)
      (fun r => ∃ c, r.1 = frameAddr c ∧ Cloned s k r.2 c) := by
  unfold pagingCloneDirectory
  refine Ensures.bind (allocTable_spec hs) ?_
  rintro ⟨a, t⟩ ⟨c, -, rfl, htakes, honly, hblank⟩
  exact ensures_ok.mpr ⟨c, rfl, .of_blank hs hk htakes honly hblank⟩

/-- `pmm_alloc` and `map_page_in` for each address, with its flags. -/
def mapPages (pml4 : Nat) : List (Nat × Nat) → Machine → Except Halt Machine
  | [], s => .ok s
  | (v, flags) :: vs, s => do
    let (physical, pmm) ← pmmAlloc s.pmm
    let s ← mapPageIn { s with pmm := pmm } pml4 v physical flags
    mapPages pml4 vs s

/-- A new directory with a page at each address. -/
def buildDirectory (s : Machine) (kernelPml4 : Nat) (vs : List (Nat × Nat)) :
    Except Halt (Nat × Machine) := do
  let (dir, s) ← pagingCloneDirectory s kernelPml4
  let s ← mapPages dir vs s
  .ok (dir, s)

/-- `Built s t root N`: the directory consists of the frames `N`, all of them taken since `s`. -/
structure Built (s t : Machine) (root : Nat) (N : Finset Nat) : Prop where
  takes : Takes s.pmm t.pmm N
  dir : Dir t root
  mem : ∀ q, q ∈ root :: frames t.mem 4 root ↔ q ∈ N

/-- What `map_page_in` is asked for here: a lower-half page, present. -/
def Mappable (x : Nat × Nat) : Prop := LowerHalf x.1 ∧ x.2 % 2 = 1

section Building

variable {s t u : Machine} {root : Nat} {N : Finset Nat}

/-- One more page. -/
theorem Built.mapPage {x : Nat × Nat} (h : Built s t root N) (ht : t.Wf) (hx : Mappable x)
    (hleaf : leaf t.mem root x.1 = none) :
    Ensures (do
        let (physical, pmm) ← pmmAlloc t.pmm
        mapPageIn { t with pmm := pmm } (frameAddr root) x.1 physical x.2)
      (fun _ => t.pmm.freePages.card < 4)
      (fun u => ∃ N', Built s u root N' ∧ u.Wf ∧
        t.pmm.freePages.card ≤ u.pmm.freePages.card + 4 ∧
        ∀ w, LowerHalf w → w / pageSize ≠ x.1 / pageSize →
          leaf u.mem root w = leaf t.mem root w) := by
  refine Ensures.bind ((pmmAlloc_spec ht.pmm).mono (fun _ he => by simp [he.2]) fun r hr => hr) ?_
  rintro ⟨a, pm⟩ ⟨f, hf, -, rfl, htakes⟩
  simp only at htakes ⊢
  have hcard := htakes.card_add
  have hfused : pm.Used f := htakes.used_of_mem (Finset.mem_singleton_self f)
  have hwf : Machine.Wf ⟨t.mem, pm⟩ := ht.of_takes htakes
  obtain ⟨-, hdir⟩ := h.dir.keep_taken ht htakes (OnlyIn.refl t.mem {f})
  have hfnot : f ∉ root :: frames t.mem 4 root := fun hmem =>
    h.dir.ne_taken htakes f (List.mem_cons.mp hmem) rfl
  refine (mapPageIn_spec hdir hwf hx.1 hfused hfnot hx.2).mono (fun _ he => ?_) ?_
  · rw [Finset.card_singleton] at hcard
    simp only at he
    omega
  · rintro u ⟨N', hN', hmap⟩
    obtain ⟨rest, hold, hnew⟩ := hmap.frames
    simp only [hleaf, Option.toList_none, List.nil_append] at hold
    have hcard' := hmap.takes.card_add
    simp only at hcard'
    rw [Finset.card_singleton] at hcard
    refine ⟨N ∪ {f} ∪ N', ⟨(h.takes.trans htakes).trans hmap.takes, hmap.dir, fun q => ?_⟩,
      hwf.of_takes hmap.takes, by omega, hmap.others⟩
    have hqN := h.mem q
    rw [List.mem_cons, hold.mem_iff] at hqN
    rw [List.mem_cons, hnew.mem_iff, List.cons_append, List.mem_cons, List.mem_append,
      Finset.mem_toList, Finset.mem_union, Finset.mem_union, Finset.mem_singleton, ← hqN]
    tauto

/-- All the pages. -/
theorem mapPages_spec : ∀ (vs : List (Nat × Nat)) {t : Machine} {N : Finset Nat},
    Built s t root N → t.Wf → (∀ x ∈ vs, Mappable x ∧ leaf t.mem root x.1 = none) →
    vs.Pairwise (fun x y => y.1 / pageSize ≠ x.1 / pageSize) →
    Ensures (mapPages (frameAddr root) vs t) (fun _ => t.pmm.freePages.card < 4 * vs.length)
      (fun u => ∃ N', Built s u root N')
  | [], t, N, h, _, _, _ => ensures_ok.mpr ⟨N, h⟩
  | x :: vs, t, N, h, ht, hvs, hpair => by
    obtain ⟨hx, hleaf⟩ := hvs x List.mem_cons_self
    obtain ⟨hxvs, hpair⟩ := List.pairwise_cons.mp hpair
    have hsplit : mapPages (frameAddr root) (x :: vs) t = (do
        let (physical, pmm) ← pmmAlloc t.pmm
        mapPageIn { t with pmm := pmm } (frameAddr root) x.1 physical x.2) >>=
          mapPages (frameAddr root) vs := by
      rw [mapPages, bind_assoc]
    rw [hsplit]
    refine Ensures.bind ((h.mapPage ht hx hleaf).mono (fun _ he => ?_) fun u hu => hu) ?_
    · rw [List.length_cons]
      omega
    · rintro u ⟨N', hbuilt, hu, hcard, hothers⟩
      refine (mapPages_spec vs hbuilt hu (fun y hy => ?_) hpair).mono (fun _ he => ?_) fun r hr => hr
      · obtain ⟨hy', hyleaf⟩ := hvs y (List.mem_cons_of_mem _ hy)
        exact ⟨hy', (hothers y.1 hy'.1 (hxvs y hy)).trans hyleaf⟩
      · rw [List.length_cons]
        omega

/-- **Freeing a directory that was built gives back exactly its frames.** -/
theorem Built.restores (hs : s.Wf) (h : Built s t root N) :
    (pagingFreeDirectory t (frameAddr root)).pmm = s.pmm ∧
      ∀ q, q ∉ root :: frames t.mem 4 root →
        (pagingFreeDirectory t (frameAddr root)).pmm.bitmapTest q = t.pmm.bitmapTest q := by
  have hfree : ∀ q, q = root ∨ q ∈ frames t.mem 4 root → q ∈ s.pmm.freePages := fun q hq =>
    h.takes.free ((h.mem q).mp (List.mem_cons.mpr hq))
  have hroot := hfree root (Or.inl rfl)
  have hperm := List.perm_append_singleton root (frames t.mem 4 root)
  rw [pagingFreeDirectory_eq (hs.lt_of_free hroot) (fun q hq => hs.pmm.pos_of_mem (hfree q hq))
    (hs.frameAddr_ne_zero (Pmm.mem_freePages.mp hroot).1)]
  refine ⟨?_, fun q hq => ?_⟩
  · exact h.takes.releaseAll (hperm.nodup_iff.mpr h.dir.nodup) fun q =>
      hperm.mem_iff.trans (h.mem q)
  · dsimp only
    rw [Pmm.test_releaseAll, decide_eq_false fun hmem => hq (hperm.mem_iff.mp hmem), Bool.or_false]

end Building

/-- `Through m root lo hi q`: frame `q` is reached through one of the entries `lo` to `hi - 1` of a
PML4. -/
def Through (m : Memory) (root lo hi q : Nat) : Prop :=
  ∃ i, lo ≤ i ∧ i < hi ∧ q ∈ framesAt m 3 root i

theorem mem_frames_iff_through {m : Memory} {root q : Nat} :
    q ∈ frames m 4 root ↔ Through m root 0 256 q := by
  refine mem_framesUpTo.trans ⟨?_, ?_⟩
  · rintro ⟨i, hi, hq⟩
    exact ⟨i, Nat.zero_le i, hi, hq⟩
  · rintro ⟨i, -, hi, hq⟩
    exact ⟨i, hi, hq⟩

/-- **Creating and destroying an address space balance.**  A copied directory, and one that was built
page by page, give back all they took and nothing else when they are freed; no frame that is only
reached through the upper half is freed.  Both only fail for want of pages. -/
theorem directory_balance (s : Machine) (hs : s.Wf) :
    (∀ src, DirUsed s src → Ensures (pagingDeepCopyDirectory s (frameAddr src))
      (fun _ => s.pmm.freePages.card < (src :: frames s.mem 4 src).length)
      (fun r => (pagingFreeDirectory r.2 r.1).pmm = s.pmm)) ∧
    ∀ k vs, s.pmm.Used k → (∀ x ∈ vs, Mappable x ∧ x.1 % pageSize = 0) →
      (vs.map Prod.fst).Nodup → Ensures (buildDirectory s (frameAddr k) vs)
        (fun _ => s.pmm.freePages.card < 4 * vs.length + 1)
        (fun r => (pagingFreeDirectory r.2 r.1).pmm = s.pmm ∧ ∃ root, r.1 = frameAddr root ∧
          ∀ q, Through r.2.mem root 256 512 q → ¬ Through r.2.mem root 0 256 q → q ≠ root →
            (pagingFreeDirectory r.2 r.1).pmm.bitmapTest q = r.2.pmm.bitmapTest q) := by
  refine ⟨fun src hsrc => ?_, fun k vs hk hvs hnodup => ?_⟩
  · refine (pagingDeepCopyDirectory_spec hs hsrc).mono (fun _ he => he) ?_
    rintro ⟨a, t⟩ ⟨dst, N, rfl, hforked⟩
    exact hforked.restores hs
  · unfold buildDirectory
    refine Ensures.bind ((pagingCloneDirectory_spec hs hk).mono (fun _ he => by simp [he])
      fun r hr => hr) ?_
    rintro ⟨a, t⟩ ⟨c, rfl, hclone⟩
    simp only at hclone ⊢
    have hbuilt : Built s t c {c} := by
      refine ⟨hclone.takes, hclone.dir, fun q => ?_⟩
      rw [hclone.frames, List.mem_singleton, Finset.mem_singleton]
    have hpair : vs.Pairwise fun x y => y.1 / pageSize ≠ x.1 / pageSize := by
      refine (List.pairwise_map.mp hnodup).imp_of_mem fun {x y} hx hy hne heq => hne ?_
      have hx0 := (hvs x hx).2
      have hy0 := (hvs y hy).2
      unfold pageSize at hx0 hy0 heq
      omega
    refine Ensures.bind ((mapPages_spec vs hbuilt (hs.of_takes hclone.takes)
      (fun x hx => ⟨(hvs x hx).1, hclone.leaf x.1 (hvs x hx).1.1⟩) hpair).mono (fun _ he => ?_)
      fun u hu => hu) ?_
    · have hcard := hclone.takes.card_add
      rw [Finset.card_singleton] at hcard
      omega
    · rintro u ⟨N, hu⟩
      obtain ⟨hpmm, hother⟩ := hu.restores hs
      refine ensures_ok.mpr ⟨hpmm, c, rfl, fun q _ hlow hq => hother q ?_⟩
      rw [List.mem_cons, mem_frames_iff_through]
      rintro (h | h)
      · exact hq h
      · exact hlow h

theorem directory_balance_one_page :
    (∃ r, pagingDeepCopyDirectory onePageMachine (frameAddr 1) = .ok r ∧
      (pagingFreeDirectory r.2 r.1).pmm = onePageMachine.pmm) ∧
    ∃ r, buildDirectory onePageMachine (frameAddr 1) [(0x400000, 7)] = .ok r ∧
      (pagingFreeDirectory r.2 r.1).pmm = onePageMachine.pmm := by
  obtain ⟨hcopy, hbuild⟩ := directory_balance onePageMachine onePageMachine_wf
  have hcard : onePageMachine.pmm.freePages.card = 8 := by decide
  refine ⟨(hcopy 1 dirUsed_onePageMachine).exists_ok fun _ he => ?_, ?_⟩
  · rw [hcard, frames_onePageMachine] at he
    exact absurd he (by decide)
  · have hmap : ∀ x ∈ [(0x400000, 7)], Mappable x ∧ x.1 % pageSize = 0 := by
      unfold Mappable LowerHalf
      decide
    obtain ⟨r, hok, hr, -⟩ := (hbuild 1 _ (used_onePageMachine (by decide)) hmap
      (by decide)).exists_ok fun _ he => absurd (hcard ▸ he) (by decide)
    exact ⟨r, hok, hr⟩

theorem dir_onePageMachine : Dir onePageMachine 1 := by
  refine ⟨?_, dirUsed_onePageMachine, fun p hp i hi _ => ?_⟩
  · rw [frames_onePageMachine]
    decide
  · exact not_hugePage_onePageMachine (frames_lt (List.mem_map.mpr ⟨_, hp, rfl⟩)) hi

/-- The page at address 0 is the only one. -/
theorem leaf_onePageMachine {v : Nat} (hv : v < 0x200000) :
    leaf onePageMachine.mem 1 v = if v < 4096 then some 5 else none := by
  have hpath : path v = [0, 0, 0, v / 4096] := by
    have hpt : v / 2 ^ 12 % 512 = v / 4096 := Nat.mod_eq_of_lt (by omega)
    unfold path pml4Index pdptIndex pdIndex ptIndex
    rw [hpt, Nat.div_eq_of_lt (by omega), Nat.div_eq_of_lt (by omega), Nat.div_eq_of_lt (by omega)]
  rw [leaf, follow, hpath, walk_cons (by decide), kids_onePageMachine _ (by decide) (by decide),
    Option.bind_some, walk_cons (by decide), kids_onePageMachine _ (by decide) (by decide),
    Option.bind_some, walk_cons (by decide), kids_onePageMachine _ (by decide) (by decide),
    Option.bind_some, walk_cons (show v / 4096 < 512 by omega)]
  split
  · rename_i hlt
    rw [Nat.div_eq_of_lt hlt, kids_onePageMachine _ (by decide) (by decide)]
    rfl
  · rename_i hge
    rw [kids_onePageMachine_pos _ (show 0 < v / 4096 by omega) (by omega) (by decide)]
    rfl

end AcornOS
