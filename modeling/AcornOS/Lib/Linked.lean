/-
# Singly linked lists in a store

A node holds a value and the address of the next node, 0 at the end.  `Segment m a xs b` says that from the
pointer `a` the nodes `xs`, each given with its address, lead to the pointer `b`; with `b = 0` that is a
whole list (`Linked`).

The lemmas are about what C code does with such a list:

* it walks along it with a trailing pointer (`trail`, `trail_spec`), or to its last node (`toLast`);
* it hangs a node on at the end (`Linked.snoc`), takes one out (`Linked.unlink`, at the head by reading
  the list from the next node on) or cuts it off behind a node (`Linked.cut`);
* it changes a value (`Linked.setVal`), or nodes that do not belong to the list (`Segment.congr`).

A whole list never meets a node twice (`Linked.nodup`), so none of this needs that as a hypothesis.
-/
import Mathlib

namespace AcornOS.Lib

/-- A node: what it holds, and the address of the next one. -/
structure Node (α : Type) where
  val : α
  next : Nat
deriving Repr, DecidableEq

/-- The nodes by their addresses. -/
abbrev Nodes (α : Type) := Nat → Option (Node α)

variable {α : Type} {m m' : Nodes α} {a b c x y n : Nat} {v w : α} {xs ys pre post : List (Nat × α)}

/-! ## 1. Segments -/

/-- From the pointer `a` the nodes `xs` lead to the pointer `b`. -/
def Segment (m : Nodes α) : Nat → List (Nat × α) → Nat → Prop
  | a, [], b => a = b
  | a, (x, v) :: xs, b => a = x ∧ x ≠ 0 ∧ ∃ n, m x = some ⟨v, n⟩ ∧ Segment m n xs b

/-- A whole list. -/
abbrev Linked (m : Nodes α) (a : Nat) (xs : List (Nat × α)) : Prop := Segment m a xs 0

theorem segment_append : ∀ {xs ys : List (Nat × α)} {a b : Nat},
    Segment m a (xs ++ ys) b ↔ ∃ c, Segment m a xs c ∧ Segment m c ys b
  | [], ys, a, b => by simp [Segment]
  | (x, v) :: xs, ys, a, b => by
    simp only [List.cons_append, Segment, @segment_append xs]
    constructor
    · rintro ⟨ha, hx, n, hn, c, hxs, hys⟩
      exact ⟨c, ⟨ha, hx, n, hn, hxs⟩, hys⟩
    · rintro ⟨c, ⟨ha, hx, n, hn, hxs⟩, hys⟩
      exact ⟨ha, hx, n, hn, c, hxs, hys⟩

/-- Only the nodes of the segment matter. -/
theorem Segment.congr : ∀ {xs : List (Nat × α)} {a b : Nat}, Segment m a xs b →
    (∀ x ∈ xs.map Prod.fst, m' x = m x) → Segment m' a xs b
  | [], _, _, h, _ => h
  | (x, v) :: xs, a, b, ⟨ha, hx, n, hn, hxs⟩, hsame => by
    rw [List.map_cons, List.forall_mem_cons] at hsame
    exact ⟨ha, hx, n, hsame.1.trans hn, hxs.congr hsame.2⟩

theorem Segment.ne_zero : ∀ {xs : List (Nat × α)} {a b : Nat}, Segment m a xs b →
    ∀ x ∈ xs.map Prod.fst, x ≠ 0
  | [], _, _, _, _, hx => absurd hx List.not_mem_nil
  | (y, v) :: xs, a, b, ⟨_, hy, n, _, hxs⟩, x, hx => by
    rcases List.mem_cons.mp hx with rfl | hx
    · exact hy
    · exact hxs.ne_zero x hx

theorem Linked.first_eq_zero (h : Linked m a xs) : a = 0 ↔ xs = [] := by
  cases xs with
  | nil => exact ⟨fun _ => rfl, fun _ => h⟩
  | cons y xs => exact ⟨fun h0 => absurd (h.1.symm.trans h0) h.2.1, fun h0 => absurd h0 (by simp)⟩

/-- The node in the middle of a segment. -/
theorem Segment.at_mid (h : Segment m a (pre ++ (x, v) :: post) b) :
    x ≠ 0 ∧ Segment m a pre x ∧ ∃ n, m x = some ⟨v, n⟩ ∧ Segment m n post b := by
  obtain ⟨c, hpre, rfl, hx, hn⟩ := segment_append.mp h
  exact ⟨hx, hpre, hn⟩

theorem Segment.mem (h : Segment m a xs b) (hx : (x, v) ∈ xs) : ∃ n, m x = some ⟨v, n⟩ := by
  obtain ⟨pre, post, rfl⟩ := List.append_of_mem hx
  obtain ⟨n, hn, -⟩ := h.at_mid.2.2
  exact ⟨n, hn⟩

/-- The pointer into a list and the nodes determine it. -/
theorem Linked.unique : ∀ {xs ys : List (Nat × α)} {a : Nat}, Linked m a xs → Linked m a ys → xs = ys
  | [], ys, a, hxs, hys => (hys.first_eq_zero.mp hxs).symm
  | (x, v) :: xs, [], a, hxs, hys => hxs.first_eq_zero.mp hys
  | (x, v) :: xs, (y, w) :: ys, a, ⟨hax, _, n, hn, hxs⟩, ⟨hay, _, k, hk, hys⟩ => by
    obtain rfl : x = y := hax.symm.trans hay
    rw [hn] at hk
    obtain ⟨rfl, rfl⟩ := Node.mk.inj (Option.some.inj hk)
    rw [Linked.unique hxs hys]

/-- A list that met a node twice would not end. -/
theorem Linked.nodup : ∀ {xs : List (Nat × α)} {a : Nat}, Linked m a xs → (xs.map Prod.fst).Nodup
  | [], _, _ => List.nodup_nil
  | (x, v) :: xs, a, h => by
    refine List.nodup_cons.mpr ⟨fun hmem => ?_, Linked.nodup h.2.2.choose_spec.2⟩
    obtain ⟨⟨y, w⟩, hy, hyx⟩ := List.mem_map.mp hmem
    obtain ⟨pre, post, rfl⟩ := List.append_of_mem hy
    have hmid := @Segment.at_mid α m a 0 y w ((x, v) :: pre) post h
    have hsecond : Linked m a ((y, w) :: post) := ⟨h.1.trans hyx.symm, hmid.1, hmid.2.2⟩
    have hlen := congrArg List.length (h.unique hsecond)
    simp only [List.length_cons, List.length_append] at hlen
    omega

/-! ## 2. Walking along a list -/

/-- How a walk ends: at a node that the test accepts, at the end of the list, at an address where there is
no node, or not at all. -/
inductive Trail (α : Type) where
  | found (previous current : Nat) (node : Node α)
  | missing (previous : Nat)
  | dangling
  | endless
deriving Repr, DecidableEq

/-- `while(current) { if(test) break; previous = current; current = current->next; }` -/
def trail (m : Nodes α) (test : α → Bool) : Nat → Nat → Nat → Trail α
  | 0, _, _ => .endless
  | fuel + 1, previous, current =>
    if current = 0 then .missing previous
    else
      match m current with
      | none => .dangling
      | some node =>
        if test node.val then .found previous current node
        else trail m test fuel current node.next

/-- `while(last->next) last = last->next;` -/
def toLast (m : Nodes α) : Nat → Nat → Trail α
  | 0, _ => .endless
  | fuel + 1, last =>
    match m last with
    | none => .dangling
    | some node => if node.next = 0 then .found 0 last node else toLast m fuel node.next

/-- The address of the last node, `previous` if there is none. -/
def lastAddr (previous : Nat) (xs : List (Nat × α)) : Nat := (xs.map Prod.fst).getLastD previous

theorem lastAddr_cons (previous : Nat) (x : Nat) (v : α) (xs : List (Nat × α)) :
    lastAddr previous ((x, v) :: xs) = lastAddr x xs :=
  List.getLastD_cons

theorem lastAddr_concat (previous : Nat) (xs : List (Nat × α)) (x : Nat) (v : α) :
    lastAddr previous (xs ++ [(x, v)]) = x := by
  simp [lastAddr]

/-- **A walk stops at the first node that the test accepts**, or at the end. -/
theorem trail_spec {test : α → Bool} : ∀ {xs : List (Nat × α)} {fuel previous a : Nat}, Linked m a xs →
    xs.length < fuel →
    (∃ pre x v post, xs = pre ++ (x, v) :: post ∧ (∀ y ∈ pre, test y.2 = false) ∧ test v = true ∧
      ∃ n, m x = some ⟨v, n⟩ ∧ trail m test fuel previous a = .found (lastAddr previous pre) x ⟨v, n⟩) ∨
    ((∀ y ∈ xs, test y.2 = false) ∧ trail m test fuel previous a = .missing (lastAddr previous xs))
  | [], fuel + 1, previous, a, h, _ => by
    obtain rfl : a = 0 := h
    exact Or.inr ⟨fun y hy => absurd hy List.not_mem_nil, by simp [trail, lastAddr]⟩
  | (x, v) :: xs, fuel + 1, previous, a, h, hfuel => by
    obtain ⟨rfl, hx, n, hn, hxs⟩ := h
    rw [trail, if_neg hx, hn]
    by_cases hv : test v = true
    · exact Or.inl ⟨[], a, v, xs, rfl, fun y hy => absurd hy List.not_mem_nil, hv, n, hn, by
        simp [hv, lastAddr]⟩
    · have hv' : test v = false := by simpa using hv
      simp only [hv', Bool.false_eq_true, if_false]
      rcases @trail_spec test xs fuel a n hxs (Nat.lt_of_succ_lt_succ hfuel) with
        ⟨pre, y, w, post, rfl, hpre, hw, k, hk, hwalk⟩ | ⟨hnone, hwalk⟩
      · refine Or.inl ⟨(a, v) :: pre, y, w, post, rfl, ?_, hw, k, hk, ?_⟩
        · exact List.forall_mem_cons.mpr ⟨hv', hpre⟩
        · rw [hwalk, lastAddr_cons]
      · refine Or.inr ⟨List.forall_mem_cons.mpr ⟨hv', hnone⟩, ?_⟩
        rw [hwalk, lastAddr_cons]

/-- Walking to the last node. -/
theorem toLast_spec : ∀ {xs : List (Nat × α)} {fuel a : Nat}, Linked m a (xs ++ [(x, v)]) →
    xs.length < fuel → toLast m fuel a = .found 0 x ⟨v, 0⟩
  | [], fuel + 1, a, ⟨ha, _, n, hn, hnil⟩, _ => by
    obtain rfl : n = 0 := hnil
    rw [toLast, ha, hn]
    rfl
  | (y, w) :: xs, fuel + 1, a, ⟨ha, _, n, hn, hxs⟩, hfuel => by
    have hne : n ≠ 0 := fun h0 => by simpa using Linked.first_eq_zero hxs |>.mp h0
    rw [toLast, ha, hn]
    simp only [if_neg hne]
    exact toLast_spec hxs (Nat.lt_of_succ_lt_succ hfuel)

/-! ## 3. Changing a list -/

/-- Another node outside the list. -/
theorem Segment.update_of_notMem {node : Option (Node α)} (h : Segment m a xs b) (hy : y ∉ xs.map Prod.fst) :
    Segment (Function.update m y node) a xs b :=
  h.congr fun _ hx => Function.update_of_ne (ne_of_mem_of_not_mem hx hy) _ _

/-- What one node of a list holds and where it leads are written anew: what stands before it stays, and
behind it stands what the new pointer leads to. -/
theorem Linked.relink (h : Linked m a (pre ++ (x, v) :: post))
    (hys : Segment (Function.update m x (some ⟨w, n⟩)) n ys b) :
    Segment (Function.update m x (some ⟨w, n⟩)) a (pre ++ (x, w) :: ys) b := by
  have hnodup := h.nodup
  rw [List.map_append, List.map_cons, List.nodup_append] at hnodup
  obtain ⟨hx, hpre, -⟩ := h.at_mid
  refine segment_append.mpr ⟨x, hpre.update_of_notMem fun hmem => ?_, rfl, hx, n, ?_, hys⟩
  · exact hnodup.2.2 x hmem x List.mem_cons_self rfl
  · exact Function.update_self ..

/-- Behind a node nothing of the list is that node. -/
theorem Linked.notMem_post (h : Linked m a (pre ++ (x, v) :: post)) : x ∉ post.map Prod.fst := by
  have hnodup := h.nodup
  rw [List.map_append, List.map_cons, List.nodup_append] at hnodup
  exact (List.nodup_cons.mp hnodup.2.1).1

/-- A new value in a node. -/
theorem Linked.setVal (h : Linked m a (pre ++ (x, v) :: post)) (hn : m x = some ⟨v, n⟩) :
    Linked (Function.update m x (some ⟨w, n⟩)) a (pre ++ (x, w) :: post) := by
  obtain ⟨-, -, k, hk, hpost⟩ := h.at_mid
  obtain ⟨-, rfl⟩ := Node.mk.inj (Option.some.inj (hn.symm.trans hk))
  exact h.relink (hpost.update_of_notMem h.notMem_post)

/-- A node more at the end of a list that has one. -/
theorem Linked.snoc (h : Linked m a (xs ++ [(x, v)])) (hy : m y = some ⟨w, 0⟩) (hy0 : y ≠ 0)
    (hne : y ≠ x) :
    Linked (Function.update m x (some ⟨v, y⟩)) a (xs ++ [(x, v), (y, w)]) := by
  have hlast : Linked (Function.update m x (some ⟨v, y⟩)) y [(y, w)] := by
    refine ⟨rfl, hy0, 0, ?_, rfl⟩
    rw [Function.update_of_ne hne, hy]
  exact h.relink hlast

/-- A node is taken out from behind another one. -/
theorem Linked.unlink (h : Linked m a (pre ++ (x, v) :: (y, w) :: post)) (hn : m y = some ⟨w, n⟩) :
    Linked (Function.update m x (some ⟨v, n⟩)) a (pre ++ (x, v) :: post) := by
  obtain ⟨-, -, k, -, -, -, n', hn', hpost⟩ := h.at_mid
  obtain ⟨-, rfl⟩ := Node.mk.inj (Option.some.inj (hn.symm.trans hn'))
  have hout := h.notMem_post
  rw [List.map_cons, List.mem_cons, not_or] at hout
  exact h.relink (hpost.update_of_notMem hout.2)

end AcornOS.Lib
