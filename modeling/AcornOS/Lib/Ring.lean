/-
# Rings: circular singly linked lists

A list `q` of nodes and a function `next` that leads from each node to the one behind it, and from the
last one back to the first.  Mathlib's `Cycle.Chain` says just that and does not care where the cycle
is cut open, so `Ring next q` may be read from any node of `q`.

* `ring_link`: what linking a node in behind another (or unlinking it) does to the ring.
* `Ring.unique`: the first node and `next` determine the list.
* `first_unique`: a walk along the nodes that looks for one of a kind can only stop at the first.
-/
import Mathlib

namespace AcornOS.Lib

open scoped List

variable {α : Type} {next next' : α → α} {q q' ys : List α} {c p : α}

/-- `b` is the node behind `a`. -/
def Leads (next : α → α) (a b : α) : Prop := next a = b

/-- `next` leads through `q` and back to its first node. -/
def Ring (next : α → α) (q : List α) : Prop := Cycle.Chain (Leads next) (q : Cycle α)

/-- A ring has no beginning. -/
theorem Ring.rotated (h : Ring next q) (hr : q ~r q') : Ring next q' := by
  unfold Ring at h ⊢
  rwa [← Cycle.coe_eq_coe.mpr hr]

theorem ring_iff_isChain :
    Ring next (ys ++ [c]) ↔ (c :: (ys ++ [c])).IsChain (Leads next) := by
  unfold Ring
  rw [← Cycle.coe_cons_eq_coe_append]
  exact Cycle.chain_coe_cons _ _ _

theorem Ring.isChain (h : Ring next q) : q.IsChain (Leads next) := by
  induction q using List.reverseRecOn with
  | nil => exact List.isChain_nil
  | append_singleton ys c _ => exact (List.isChain_cons.mp (ring_iff_isChain.mp h)).2

/-- Only what `next` says about the nodes before the last one matters. -/
theorem isChain_congr_init (h : ∀ a ∈ ys, next' a = next a) :
    (ys ++ [c]).IsChain (Leads next') ↔ (ys ++ [c]).IsChain (Leads next) := by
  induction ys with
  | nil => simp
  | cons y ys ih =>
    have hy : ∀ b, Leads next' y b ↔ Leads next y b := fun b => by
      rw [Leads, Leads, h y List.mem_cons_self]
    rw [List.cons_append, List.isChain_cons, List.isChain_cons,
      ih fun a ha => h a (List.mem_cons_of_mem _ ha)]
    simp only [hy]

theorem Ring.congr (h : Ring next q) (hagree : ∀ a ∈ q, next' a = next a) : Ring next' q := by
  induction q using List.reverseRecOn with
  | nil => exact Cycle.Chain.nil _
  | append_singleton ys c _ =>
    rw [ring_iff_isChain] at h ⊢
    have hinit : ∀ a ∈ c :: ys, next' a = next a := by
      intro a ha
      refine hagree a ?_
      rcases List.mem_cons.mp ha with rfl | ha
      · simp
      · simp [ha]
    exact (isChain_congr_init hinit).mpr h

/-- **Linking.**  `next'` has `p` between `c` and what is behind `c` for `next`. -/
theorem ring_link (hys : ∀ a ∈ ys, next' a = next a) (hc : next' c = p) (hp : next' p = next c) :
    Ring next' (ys ++ [c] ++ [p]) ↔ Ring next (ys ++ [c]) := by
  rw [ring_iff_isChain, ring_iff_isChain, List.isChain_cons, List.isChain_cons, List.isChain_append,
    isChain_congr_init hys]
  have hp' : ∀ b, Leads next' p b ↔ Leads next c b := fun b => by rw [Leads, Leads, hp]
  have hhead : (ys ++ [c] ++ [p]).head? = (ys ++ [c]).head? := by
    cases ys with
    | nil => rfl
    | cons y ys => rfl
  simp only [hhead, hp']
  simp [Leads, hc]

/-- The node behind the last but one is the last. -/
theorem Ring.leads_last (h : Ring next (ys ++ [c] ++ [p])) : next c = p := by
  rw [ring_iff_isChain, List.isChain_cons, List.isChain_append] at h
  exact h.2.2.2 c (by simp) p (by simp)

/-- The node behind the last is the first. -/
theorem Ring.leads_first (h : Ring next (ys ++ [c])) : (ys ++ [c]).head? = some (next c) := by
  have hchain := ring_iff_isChain.mp h
  cases ys with
  | nil => exact congrArg some (List.isChain_cons_cons.mp hchain).1.symm
  | cons y ys => exact congrArg some (List.isChain_cons_cons.mp hchain).1.symm

/-- Two chains that start at the same node and stop at the first visit to `c` are the same. -/
theorem isChain_unique {a : α} : ∀ {l l' : List α},
    (a :: (l ++ [c])).IsChain (Leads next) →
    (a :: (l' ++ [c])).IsChain (Leads next) → c ∉ l → c ∉ l' → l = l'
  | [], [], _, _, _, _ => rfl
  | [], y :: l', h, h', _, hc' => by
    have hy : next a = y := (List.isChain_cons_cons.mp h').1
    have hc : next a = c := (List.isChain_cons_cons.mp h).1
    exact absurd (hy.symm.trans hc ▸ List.mem_cons_self) hc'
  | x :: l, [], h, h', hc, _ => by
    have hx : next a = x := (List.isChain_cons_cons.mp h).1
    have hc' : next a = c := (List.isChain_cons_cons.mp h').1
    exact absurd (hx.symm.trans hc' ▸ List.mem_cons_self) hc
  | x :: l, y :: l', h, h', hc, hc' => by
    obtain ⟨hx, hl⟩ := List.isChain_cons_cons.mp h
    obtain ⟨hy, hl'⟩ := List.isChain_cons_cons.mp h'
    obtain rfl : x = y := Eq.trans (Eq.symm hx) hy
    rw [isChain_unique hl hl'
      (fun hm => hc (List.mem_cons_of_mem _ hm)) fun hm => hc' (List.mem_cons_of_mem _ hm)]

/-- A ring of different nodes is determined by its last node. -/
theorem Ring.unique (h : Ring next q) (h' : Ring next q') (hq : q.Nodup) (hq' : q'.Nodup)
    (hlast : q.getLast? = q'.getLast?) : q = q' := by
  induction q using List.reverseRecOn with
  | nil =>
    rw [List.getLast?_nil] at hlast
    exact (List.getLast?_eq_none_iff.mp hlast.symm).symm
  | append_singleton ys c _ =>
    induction q' using List.reverseRecOn with
    | nil => simp at hlast
    | append_singleton ys' c' _ =>
      obtain rfl : c = c' := by simpa using hlast
      rw [isChain_unique (ring_iff_isChain.mp h) (ring_iff_isChain.mp h')]
      · exact fun hm => (List.nodup_append.mp hq).2.2 c hm c (by simp) rfl
      · exact fun hm => (List.nodup_append.mp hq').2.2 c hm c (by simp) rfl

/-- There is one first node of a kind. -/
theorem first_unique {P : α → Prop} {xs xs' ys' : List α} {a b : α}
    (h : xs ++ a :: ys = xs' ++ b :: ys') (hxs : ∀ p ∈ xs, ¬ P p) (ha : P a)
    (hxs' : ∀ p ∈ xs', ¬ P p) (hb : P b) : a = b := by
  classical
  have hfind : ∀ {l zs ws : List α} {c : α}, l = zs ++ c :: ws → (∀ p ∈ zs, ¬ P p) → P c →
      l.find? (fun p => decide (P p)) = some c := fun hl hzs hc =>
    List.find?_eq_some_iff_append.mpr
      ⟨decide_eq_true hc, _, _, hl, fun p hp => by simpa using hzs p hp⟩
  exact Option.some.inj ((hfind rfl hxs ha).symm.trans (hfind h hxs' hb))

end AcornOS.Lib
