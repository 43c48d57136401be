/-
# Radix trees stored in memory

A table of children at every level above 0, one entry for each index.  The tree is not a data
type: it is whatever `kid level node index` says, and `kid` is read off memory, so that writing
an entry changes the tree.  Page tables are such trees, with page frames for nodes.

* `nodes kid n p` lists the nodes strictly below `p`, children before their parent, each with its
  level.  This is the order in which a recursive walk that frees a tree frees it.
* `walk kid n p path` follows a path of indices.

The tree is a tree (and not a graph) when `nodes` has no duplicates.  Then an entry can be
rewritten in place: `replace_child` says what becomes of the nodes and `walk_replace` what becomes
of the walks.
-/
import Mathlib

namespace AcornOS.Lib

open scoped List

variable {α : Type} {width : Nat → Nat}

/-- `kid level node index`: the child at an index, if there is one. -/
abbrev Kids (α : Type) := Nat → α → Nat → Option α

/-! ## 1. Nodes -/

/-- The nodes below `p`, a node of level `n`. -/
def nodes (width : Nat → Nat) (kid : Kids α) : Nat → α → List (Nat × α)
  | 0, _ => []
  | n + 1, p => (List.range (width (n + 1))).flatMap fun i =>
    match kid (n + 1) p i with
    | none => []
    | some c => nodes width kid n c ++ [(n, c)]

/-- A child with the nodes below it. -/
def subtree (width : Nat → Nat) (kid : Kids α) (n : Nat) : Option α → List (Nat × α)
  | none => []
  | some c => nodes width kid n c ++ [(n, c)]

/-- The part of `nodes` that the first `k` entries of a table account for. -/
def upTo (width : Nat → Nat) (kid : Kids α) (n : Nat) (p : α) (k : Nat) : List (Nat × α) :=
  (List.range k).flatMap fun i => subtree width kid n (kid (n + 1) p i)

section Nodes

variable {kid kid' : Kids α} {n k : Nat} {p c : α}

@[simp] theorem nodes_zero (p : α) : nodes width kid 0 p = [] := rfl

theorem nodes_succ (n : Nat) (p : α) :
    nodes width kid (n + 1) p = upTo width kid n p (width (n + 1)) := rfl

@[simp] theorem subtree_none (n : Nat) : subtree width kid n none = [] := rfl

@[simp] theorem subtree_some (n : Nat) (c : α) :
    subtree width kid n (some c) = nodes width kid n c ++ [(n, c)] := rfl

@[simp] theorem upTo_zero (n : Nat) (p : α) : upTo width kid n p 0 = [] := rfl

theorem upTo_succ (n : Nat) (p : α) (k : Nat) :
    upTo width kid n p (k + 1) =
      upTo width kid n p k ++ subtree width kid n (kid (n + 1) p k) := by
  simp [upTo, List.range_succ]

theorem mem_upTo {x : Nat × α} :
    x ∈ upTo width kid n p k ↔ ∃ i < k, x ∈ subtree width kid n (kid (n + 1) p i) := by
  simp [upTo]

theorem mem_subtree {x : Nat × α} {o : Option α} :
    x ∈ subtree width kid n o ↔ ∃ c, o = some c ∧ (x = (n, c) ∨ x ∈ nodes width kid n c) := by
  cases o with
  | none => simp
  | some c => simp [or_comm]

/-- A child, and everything below it, is below its parent. -/
theorem mem_nodes_of_kid {i : Nat} (hi : i < width (n + 1)) (hc : kid (n + 1) p i = some c)
    {x : Nat × α} (hx : x = (n, c) ∨ x ∈ nodes width kid n c) :
    x ∈ nodes width kid (n + 1) p :=
  mem_upTo.mpr ⟨i, hi, mem_subtree.mpr ⟨c, hc, hx⟩⟩

/-- `Agrees kid kid' n p`: the two trees have the same entries in `p` and in every table below
it.  Entries of nodes of level 0 are no entries and do not count. -/
def Agrees (width : Nat → Nat) (kid kid' : Kids α) (n : Nat) (p : α) : Prop :=
  ∀ x, x = (n, p) ∨ x ∈ nodes width kid n p → 0 < x.1 →
    ∀ i < width x.1, kid' x.1 x.2 i = kid x.1 x.2 i

theorem Agrees.kid_eq (h : Agrees width kid kid' (n + 1) p) {i : Nat} (hi : i < width (n + 1)) :
    kid' (n + 1) p i = kid (n + 1) p i :=
  h (n + 1, p) (Or.inl rfl) (Nat.succ_pos n) i hi

theorem Agrees.child (h : Agrees width kid kid' (n + 1) p) {i : Nat} (hi : i < width (n + 1))
    (hc : kid (n + 1) p i = some c) : Agrees width kid kid' n c :=
  fun x hx => h x (Or.inr (mem_nodes_of_kid hi hc hx))

/-- The nodes depend on the entries of the tables among them only. -/
theorem nodes_congr : ∀ {n : Nat} {p : α}, Agrees width kid kid' n p →
    nodes width kid' n p = nodes width kid n p
  | 0, _, _ => rfl
  | n + 1, p, h => by
    unfold nodes
    refine List.flatMap_congr fun i hi => ?_
    have hi := List.mem_range.mp hi
    simp only [h.kid_eq hi]
    cases hc : kid (n + 1) p i with
    | none => rfl
    | some c => simp only [nodes_congr (h.child hi hc)]

/-- The same for one child. -/
theorem subtree_congr {o : Option α} (h : ∀ c, o = some c → Agrees width kid kid' n c) :
    subtree width kid' n o = subtree width kid n o := by
  cases o with
  | none => rfl
  | some c => simp only [subtree_some, nodes_congr (h c rfl)]

/-- The same for a table that is filled up to an index. -/
theorem upTo_congr (h0 : ∀ i < k, kid' (n + 1) p i = kid (n + 1) p i)
    (h : ∀ i < k, ∀ c, kid (n + 1) p i = some c → Agrees width kid kid' n c) :
    upTo width kid' n p k = upTo width kid n p k := by
  refine List.flatMap_congr fun i hi => ?_
  have hi := List.mem_range.mp hi
  simp only [h0 i hi]
  exact subtree_congr (h i hi)

/-- A table without entries has nothing below it. -/
theorem nodes_eq_nil (h : ∀ i < width n, kid n p i = none) : nodes width kid n p = [] := by
  cases n with
  | zero => rfl
  | succ n =>
    refine List.flatMap_eq_nil_iff.mpr fun i hi => ?_
    simp only [h i (List.mem_range.mp hi)]

/-- Every node is below the root's level. -/
theorem level_lt : ∀ {n : Nat} {p : α} {x : Nat × α}, x ∈ nodes width kid n p → x.1 < n
  | n + 1, p, x, hx => by
    obtain ⟨i, -, hx⟩ := mem_upTo.mp hx
    obtain ⟨c, -, rfl | hx⟩ := mem_subtree.mp hx
    · exact Nat.lt_succ_self n
    · exact Nat.lt_succ_of_lt (level_lt hx)

end Nodes

/-! ## 2. Walks -/

/-- Following a path of indices down from `p`. -/
def walk (width : Nat → Nat) (kid : Kids α) : Nat → α → List Nat → Option α
  | _, p, [] => some p
  | 0, _, _ :: _ => none
  | n + 1, p, i :: path =>
    if i < width (n + 1) then (kid (n + 1) p i).bind fun c => walk width kid n c path else none

section Walks

variable {kid kid' : Kids α} {n i : Nat} {p c : α}

@[simp] theorem walk_nil (n : Nat) (p : α) : walk width kid n p [] = some p := by
  cases n <;> rfl

theorem walk_cons (hi : i < width (n + 1)) (path : List Nat) :
    walk width kid (n + 1) p (i :: path) =
      (kid (n + 1) p i).bind fun c => walk width kid n c path := by
  rw [walk, if_pos hi]

/-- So does a walk. -/
theorem walk_congr : ∀ {path : List Nat} {n : Nat} {p : α}, Agrees width kid kid' n p →
    walk width kid' n p path = walk width kid n p path
  | [], n, p, _ => by rw [walk_nil, walk_nil]
  | _ :: _, 0, _, _ => rfl
  | i :: path, n + 1, p, h => by
    rw [walk, walk]
    split
    · rename_i hi
      rw [h.kid_eq hi]
      cases hc : kid (n + 1) p i with
      | none => rfl
      | some c => exact walk_congr (h.child hi hc)
    · rfl

/-- Where a nonempty walk ends is a node below its start. -/
theorem mem_nodes_of_walk : ∀ {path : List Nat} {n l : Nat} {p q : α},
    path ≠ [] → walk width kid n p path = some q → n = path.length + l →
    (l, q) ∈ nodes width kid n p
  | [], _, _, _, _, hne, _, _ => absurd rfl hne
  | i :: path, 0, _, _, _, _, hw, _ => by simp [walk] at hw
  | i :: path, n + 1, l, p, q, _, hw, hn => by
    rw [walk] at hw
    split at hw
    · rename_i hi
      obtain ⟨c, hc, hw⟩ := Option.bind_eq_some_iff.mp hw
      refine mem_nodes_of_kid hi hc ?_
      have hn' : n = path.length + l := by
        simp only [List.length_cons] at hn
        omega
      cases path with
      | nil =>
        rw [walk_nil] at hw
        simp only [List.length_nil, Nat.zero_add] at hn'
        rw [hn', Option.some.inj hw]
        exact Or.inl rfl
      | cons j path => exact Or.inr (mem_nodes_of_walk (by simp) hw hn')
    · cases hw

/-- A walk can be taken in two parts. -/
theorem walk_append : ∀ {path rest : List Nat} {n l : Nat} {p q : α},
    walk width kid n p path = some q → n = path.length + l →
    walk width kid n p (path ++ rest) = walk width kid l q rest
  | [], rest, n, l, p, q, hw, hn => by
    rw [walk_nil] at hw
    simp only [List.length_nil, Nat.zero_add] at hn
    rw [List.nil_append, hn, Option.some.inj hw]
  | i :: path, _, 0, _, _, _, hw, _ => by simp [walk] at hw
  | i :: path, rest, n + 1, l, p, q, hw, hn => by
    have hn' : n = path.length + l := by
      simp only [List.length_cons] at hn
      omega
    rw [walk] at hw
    split at hw
    · rename_i hi
      obtain ⟨c, hc, hw⟩ := Option.bind_eq_some_iff.mp hw
      rw [List.cons_append, walk_cons hi, hc, Option.bind_some, walk_append hw hn']
    · cases hw

/-- A walk that ends early does not go on. -/
theorem walk_append_none : ∀ {path : List Nat} (rest : List Nat) {n : Nat} {p : α},
    walk width kid n p path = none → walk width kid n p (path ++ rest) = none
  | [], _, n, p, hw => by
    rw [walk_nil] at hw
    cases hw
  | _ :: _, _, 0, _, _ => rfl
  | i :: path, rest, n + 1, p, hw => by
    rw [walk] at hw
    rw [List.cons_append, walk]
    split
    · rename_i hi
      rw [if_pos hi] at hw
      cases hc : kid (n + 1) p i with
      | none => rfl
      | some c =>
        rw [hc, Option.bind_some] at hw
        exact walk_append_none rest hw
    · rfl

end Walks

/-! ## 3. Rewriting an entry -/

/-- One entry's subtree, and those of the others. -/
theorem nodes_split {kid : Kids α} {n i : Nat} {p : α} (hi : i < width (n + 1)) :
    nodes width kid (n + 1) p ~ subtree width kid n (kid (n + 1) p i) ++
      ((List.range (width (n + 1))).erase i).flatMap
        fun j => subtree width kid n (kid (n + 1) p j) := by
  have hperm := List.perm_cons_erase (List.mem_range.mpr hi)
  exact hperm.flatMap_right fun j => subtree width kid n (kid (n + 1) p j)

/-- Where a nonempty walk ends is below the entry it starts with. -/
theorem mem_subtree_of_walk {kid : Kids α} {i n l : Nat} {path : List Nat} {p q : α}
    (hw : walk width kid (n + 1) p (i :: path) = some q) (hn : n = path.length + l) :
    i < width (n + 1) ∧ (l, q) ∈ subtree width kid n (kid (n + 1) p i) := by
  rw [walk] at hw
  split at hw
  · rename_i hi
    obtain ⟨c, hc, hw⟩ := Option.bind_eq_some_iff.mp hw
    refine ⟨hi, mem_subtree.mpr ⟨c, hc, ?_⟩⟩
    cases path with
    | nil =>
      rw [walk_nil] at hw
      simp only [List.length_nil, Nat.zero_add] at hn
      rw [Option.some.inj hw, hn]
      exact Or.inl rfl
    | cons k path => exact Or.inr (mem_nodes_of_walk (by simp) hw hn)
  · cases hw

/-- If no node is there twice, two walks of the same length do not end in the same node. -/
theorem walk_inj {kid : Kids α} : ∀ {path path' : List Nat} {n l : Nat} {p q : α},
    ((nodes width kid n p).map Prod.snd).Nodup → walk width kid n p path = some q →
    walk width kid n p path' = some q → n = path.length + l → n = path'.length + l → path = path'
  | [], [], _, _, _, _, _, _, _, _, _ => rfl
  | [], j :: js, n, l, p, q, _, _, _, hn, hn' => by
    simp only [List.length_nil, List.length_cons] at hn hn'
    omega
  | i :: is, [], n, l, p, q, _, _, _, hn, hn' => by
    simp only [List.length_nil, List.length_cons] at hn hn'
    omega
  | i :: is, j :: js, 0, l, p, q, _, _, _, hn, _ => by
    simp only [List.length_cons] at hn
    omega
  | i :: is, j :: js, n + 1, l, p, q, hnodup, hw, hw', hn, hn' => by
    have his : n = is.length + l := by
      simp only [List.length_cons] at hn
      omega
    have hjs : n = js.length + l := by
      simp only [List.length_cons] at hn'
      omega
    obtain ⟨hi, hmem⟩ := mem_subtree_of_walk hw his
    obtain ⟨hj, hmem'⟩ := mem_subtree_of_walk hw' hjs
    have hsplit := ((@nodes_split α width kid n i p hi).map Prod.snd).nodup_iff.mp hnodup
    rw [List.map_append, List.nodup_append] at hsplit
    obtain ⟨hchild, -, hothers⟩ := hsplit
    by_cases hij : i = j
    · subst hij
      rw [walk_cons hi] at hw hw'
      obtain ⟨c, hc, hw⟩ := Option.bind_eq_some_iff.mp hw
      rw [hc, Option.bind_some] at hw'
      rw [hc, subtree_some, List.map_append] at hchild
      rw [walk_inj (List.nodup_append.mp hchild).1 hw hw' his hjs]
    · refine absurd rfl (hothers q (List.mem_map.mpr ⟨_, hmem, rfl⟩) q
        (List.mem_map.mpr ⟨(l, q), ?_, rfl⟩))
      refine List.mem_flatMap.mpr ⟨j, ?_, hmem'⟩
      exact (List.nodup_range.mem_erase_iff).mpr ⟨fun h => hij h.symm, List.mem_range.mpr hj⟩

/-- `Rewrites kid kid' n root path l p i`: the two trees differ in one entry only, entry `i` of the
table `p` of level `l + 1` that `path` leads to. -/
structure Rewrites (width : Nat → Nat) (kid kid' : Kids α) (n : Nat) (root : α) (path : List Nat)
    (l : Nat) (p : α) (i : Nat) : Prop where
  level : n = path.length + (l + 1)
  reach : walk width kid n root path = some p
  index : i < width (l + 1)
  nodup : (root :: (nodes width kid n root).map Prod.snd).Nodup
  same : ∀ x, x = (n, root) ∨ x ∈ nodes width kid n root → 0 < x.1 → ∀ j < width x.1,
    ¬ (x.2 = p ∧ j = i) → kid' x.1 x.2 j = kid x.1 x.2 j

namespace Rewrites

variable {kid kid' : Kids α} {n l i j : Nat} {root p : α} {path : List Nat}

/-- Children that `p` is not at or below are not touched. -/
theorem agrees (h : Rewrites width kid kid' (n + 1) root path l p i) (hj : j < width (n + 1))
    (hp : ∀ x ∈ subtree width kid n (kid (n + 1) root j), x.2 ≠ p) :
    ∀ c, kid (n + 1) root j = some c → Agrees width kid kid' n c := by
  intro c hc x hx hpos k hk
  refine h.same x (Or.inr (mem_nodes_of_kid hj hc hx)) hpos k hk fun hpi => ?_
  exact hp x (mem_subtree.mpr ⟨c, hc, hx⟩) hpi.1

/-- A longer path leads into one child, to which the same rewriting applies, and nothing else
about the root changes. -/
theorem descend (h : Rewrites width kid kid' (n + 1) root (j :: path) l p i) :
    j < width (n + 1) ∧ ∃ c, kid (n + 1) root j = some c ∧
      Rewrites width kid kid' n c path l p i ∧
      (∀ k < width (n + 1), kid' (n + 1) root k = kid (n + 1) root k) ∧
      ∀ k < width (n + 1), k ≠ j →
        ∀ d, kid (n + 1) root k = some d → Agrees width kid kid' n d := by
  have hreach := h.reach
  rw [walk] at hreach
  split at hreach
  · rename_i hj
    obtain ⟨c, hc, hw⟩ := Option.bind_eq_some_iff.mp hreach
    have hlevel : n = path.length + (l + 1) := by
      have := h.level
      simp only [List.length_cons] at this
      omega
    have hsplit := (@nodes_split α width kid n j root hj).map Prod.snd
    rw [hc] at hsplit
    have hnodup := h.nodup
    have hroot := (List.nodup_cons.mp hnodup).1
    have hbelow := hsplit.nodup_iff.mp (List.nodup_cons.mp hnodup).2
    rw [List.map_append, List.nodup_append] at hbelow
    obtain ⟨hchild, -, hothers⟩ := hbelow
    -- `p` is in the child's subtree, so it is neither the root nor in another one
    have hp : (l + 1, p) ∈ subtree width kid n (some c) := by
      rw [← hc]
      exact (mem_subtree_of_walk h.reach hlevel).2
    have hpmem : p ∈ (subtree width kid n (some c)).map Prod.snd :=
      List.mem_map.mpr ⟨_, hp, rfl⟩
    have hproot : root ≠ p := by
      rintro rfl
      exact hroot (List.mem_map.mpr ⟨_, mem_upTo.mpr ⟨j, hj, hc ▸ hp⟩, rfl⟩)
    refine ⟨hj, c, hc, ⟨hlevel, hw, h.index, ?_, ?_⟩, ?_, ?_⟩
    · rw [subtree_some, List.map_append] at hchild
      exact (List.perm_append_singleton _ _).nodup_iff.mp hchild
    · intro x hx
      exact h.same x (Or.inr (mem_nodes_of_kid hj hc hx))
    · intro k hk
      exact h.same (n + 1, root) (Or.inl rfl) (Nat.succ_pos n) k hk fun hpi => hproot hpi.1
    · intro k hk hkj
      refine h.agrees hk fun x hx hxp => ?_
      refine hothers p hpmem p (List.mem_map.mpr ⟨x, ?_, hxp⟩) rfl
      refine List.mem_flatMap.mpr ⟨k, ?_, hx⟩
      exact (List.nodup_range.mem_erase_iff).mpr ⟨hkj, List.mem_range.mpr hk⟩
  · cases hreach

/-- At the end of the path only the one entry's subtree changes. -/
theorem here (h : Rewrites width kid kid' (l + 1) p [] l p i) :
    ∀ k < width (l + 1), k ≠ i → kid' (l + 1) p k = kid (l + 1) p k ∧
      ∀ d, kid (l + 1) p k = some d → Agrees width kid kid' l d := by
  intro k hk hki
  have hroot := (List.nodup_cons.mp h.nodup).1
  refine ⟨h.same (l + 1, p) (Or.inl rfl) (Nat.succ_pos l) k hk fun hpi => hki hpi.2, ?_⟩
  refine h.agrees hk fun x hx hxp => hroot ?_
  exact List.mem_map.mpr ⟨x, mem_upTo.mpr ⟨k, hk, hx⟩, hxp⟩

/-- The end of an empty path is its start. -/
theorem eq_of_nil (h : Rewrites width kid kid' n root [] l p i) : n = l + 1 ∧ root = p := by
  have hlevel := h.level
  have hreach := h.reach
  rw [walk_nil] at hreach
  simp only [List.length_nil, Nat.zero_add] at hlevel
  exact ⟨hlevel, Option.some.inj hreach⟩

/-- **What becomes of the nodes** when an entry is rewritten: its old subtree goes, its new one
comes, the rest stays. -/
theorem replace_child : ∀ {path : List Nat} {n : Nat} {root : α},
    Rewrites width kid kid' n root path l p i →
    ∃ rest, nodes width kid n root ~ subtree width kid l (kid (l + 1) p i) ++ rest ∧
      nodes width kid' n root ~ subtree width kid' l (kid' (l + 1) p i) ++ rest
  | [], n, root, h => by
    obtain ⟨rfl, rfl⟩ := h.eq_of_nil
    refine ⟨_, nodes_split h.index, (nodes_split h.index).trans (List.Perm.of_eq ?_)⟩
    refine congrArg _ (List.flatMap_congr fun k hk => ?_)
    obtain ⟨hki, hk⟩ := (List.nodup_range.mem_erase_iff).mp hk
    obtain ⟨hkid, hagree⟩ := h.here k (List.mem_range.mp hk) hki
    rw [hkid, subtree_congr hagree]
  | j :: path, 0, root, h => by
    have := h.level
    simp at this
  | j :: path, n + 1, root, h => by
    obtain ⟨hj, c, hc, hchild, hroot, hothers⟩ := h.descend
    obtain ⟨rest, hold, hnew⟩ := replace_child hchild
    have hsame : ((List.range (width (n + 1))).erase j).flatMap
          (fun k => subtree width kid' n (kid' (n + 1) root k)) =
        ((List.range (width (n + 1))).erase j).flatMap
          fun k => subtree width kid n (kid (n + 1) root k) := by
      refine List.flatMap_congr fun k hk => ?_
      obtain ⟨hkj, hk⟩ := (List.nodup_range.mem_erase_iff).mp hk
      rw [hroot k (List.mem_range.mp hk), subtree_congr (hothers k (List.mem_range.mp hk) hkj)]
    refine ⟨rest ++ [(n, c)] ++ ((List.range (width (n + 1))).erase j).flatMap
      (fun k => subtree width kid n (kid (n + 1) root k)), ?_, ?_⟩
    · refine (nodes_split hj).trans ?_
      rw [hc, subtree_some, ← List.append_assoc, ← List.append_assoc]
      exact (hold.append_right _).append_right _
    · refine (nodes_split hj).trans ?_
      rw [hroot j hj, hc, subtree_some, ← List.append_assoc, ← List.append_assoc, hsame]
      exact (hnew.append_right _).append_right _

/-- **What becomes of the walks**: those that do not take the rewritten entry end where they
did. -/
theorem walk_other : ∀ {path : List Nat} {n : Nat} {root : α},
    Rewrites width kid kid' n root path l p i →
    ∀ other, ¬ (path ++ [i]) <+: other →
      walk width kid' n root other = walk width kid n root other
  | _, n, _, _, [], _ => by rw [walk_nil, walk_nil]
  | _, 0, _, _, _ :: _, _ => rfl
  | [], n + 1, root, h, k :: other, hother => by
    obtain ⟨hn, rfl⟩ := h.eq_of_nil
    obtain rfl : n = l := by omega
    have hki : k ≠ i := by
      rintro rfl
      exact hother (by simp)
    rw [walk, walk]
    split
    · rename_i hk
      obtain ⟨hkid, hagree⟩ := h.here k hk hki
      rw [hkid]
      exact Option.bind_congr fun c hc => walk_congr (hagree c hc)
    · rfl
  | j :: path, n + 1, root, h, k :: other, hother => by
    obtain ⟨hj, c, hc, hchild, hroot, hothers⟩ := h.descend
    rw [walk, walk]
    split
    · rename_i hk
      rw [hroot k hk]
      by_cases hkj : k = j
      · subst hkj
        rw [hc, Option.bind_some, Option.bind_some]
        refine walk_other hchild other fun hpre => hother ?_
        exact List.cons_prefix_cons.mpr ⟨rfl, hpre⟩
      · exact Option.bind_congr fun d hd => walk_congr (hothers k hk hkj d hd)
    · rfl

/-- The walk to the table itself is one of them. -/
theorem walk_table (h : Rewrites width kid kid' n root path l p i) :
    walk width kid' n root path = walk width kid n root path := by
  refine walk_other h path fun hpre => ?_
  have hlen := hpre.length_le
  rw [List.length_append] at hlen
  exact absurd hlen (Nat.not_succ_le_self _)

end Rewrites

end AcornOS.Lib
