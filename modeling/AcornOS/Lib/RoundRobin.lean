/-
# Round robin

Participants in a ring take turns: the turn passes from the current one to the first participant
behind it that is ready.  Participants join at the end of the ring and leave it at any place, and they
may be ready at one moment and not at the next.

* `Before q c a b`: behind `c`, the turn of `a` comes before the turn of `b`, where `c` itself comes
  last.  One that joins (`Before.snoc`) or leaves (`Before.filter`) does not change the order of the
  others, and when the turn passes to somebody before `a` (`before_advance`), those up to it go to
  the END.
* `RoundRobin.fair`: nobody gets the turn twice while somebody who is always ready does not get it.

What makes it a theorem about any run is that a participant never comes BACK: one that has left may
not join again (`seen`).  Otherwise it could leave, join right behind the current one and overtake.
-/
import AcornOS.Lib.Ring

namespace AcornOS.Lib

open scoped List

variable {α : Type} {q q' ys : List α} {c p : α}

/-! ## 1. Whose turn comes first -/

section Turns

variable {rest xs : List α} {a b d : α} {f : α → Bool}

/-- A rotation swaps two halves of a list. -/
theorem exists_halves (h : q ~r q') : ∃ xs ys, q = xs ++ ys ∧ q' = ys ++ xs := by
  obtain ⟨n, rfl⟩ := h
  refine ⟨q.take (n % q.length), q.drop (n % q.length), (List.take_append_drop _ _).symm, ?_⟩
  exact List.rotate_eq_drop_append_take_mod

/-- Once its last node is fixed, there is only one way to go round a ring. -/
theorem rotated_unique (h : xs ++ [c] ~r ys ++ [c]) (hnodup : (xs ++ [c]).Nodup) : xs = ys := by
  obtain ⟨l, l', hl, hl'⟩ := exists_halves h
  have hsame : xs ++ [c] = ys ++ [c] := by
    rcases List.eq_nil_or_concat' l' with rfl | ⟨m', d', rfl⟩
    · rw [hl, hl']
      simp
    rcases List.eq_nil_or_concat' l with rfl | ⟨m, d, rfl⟩
    · rw [hl, hl']
      simp
    -- otherwise both halves end with `c`
    have hd' : c = d' := by
      rw [← List.append_assoc] at hl
      simpa using (List.append_inj' hl rfl).2
    have hd : c = d := by
      rw [← List.append_assoc] at hl'
      simpa using (List.append_inj' hl' rfl).2
    rw [hl, List.nodup_append] at hnodup
    exact absurd rfl (hnodup.2.2 c (by simp [hd]) c (by simp [hd']))
  exact List.append_cancel_right hsame

/-- Going round the ring from behind `c`, which comes last. -/
theorem exists_rest (hc : c ∈ q) : ∃ rest, q ~r rest ++ [c] := by
  obtain ⟨xs, ys, rfl⟩ := List.append_of_mem hc
  refine ⟨ys ++ xs, ?_⟩
  have hsplit : xs ++ c :: ys = (xs ++ [c]) ++ ys := by simp
  rw [hsplit, List.append_assoc ys]
  exact List.isRotated_append

/-- Behind `c`, the turn of `a` comes before the turn of `b`. -/
def Before (q : List α) (c a b : α) : Prop :=
  ∃ rest, q ~r rest ++ [c] ∧ [a, b] <+ rest ++ [c]

theorem before_self (hc : c ∈ q) (ha : a ∈ q) (hne : a ≠ c) : Before q c a c := by
  obtain ⟨rest, hrest⟩ := exists_rest hc
  refine ⟨rest, hrest, List.Sublist.append (List.singleton_sublist.mpr ?_) (List.Sublist.refl [c])⟩
  have hmem := hrest.perm.mem_iff.mp ha
  rw [List.mem_append, List.mem_singleton] at hmem
  exact hmem.resolve_right hne

/-- A node is linked in behind the last one. -/
theorem Before.snoc (h : Before q c a b) (p : α) : Before (q ++ [p]) c a b := by
  obtain ⟨rest, hrest, hsub⟩ := h
  obtain ⟨xs, ys, rfl, hys⟩ := exists_halves hrest
  induction xs using List.reverseRecOn with
  | nil =>
    -- `c` is the last node, and the new one comes right behind it
    rw [List.append_nil] at hys
    refine ⟨p :: rest, ?_, ?_⟩
    · rw [List.nil_append, ← hys, List.cons_append]
      exact @List.isRotated_append _ (rest ++ [c]) [p]
    · exact hsub.trans (List.sublist_cons_self p _)
  | append_singleton xs x _ =>
    obtain ⟨rfl, hcx⟩ := List.append_inj' (hys.trans (List.append_assoc ys xs [x]).symm) rfl
    obtain rfl : c = x := by simpa using hcx
    refine ⟨ys ++ [p] ++ xs, ?_, ?_⟩
    · rw [List.append_assoc (xs ++ [c]), List.append_assoc (ys ++ [p])]
      exact List.isRotated_append
    · refine hsub.trans (List.Sublist.append (List.Sublist.append ?_ ?_) (List.Sublist.refl _))
      · exact List.sublist_append_left _ _
      · exact List.Sublist.refl _

/-- Nodes other than these are unlinked. -/
theorem Before.filter (h : Before q c a b) (hc : f c) (ha : f a) (hb : f b) :
    Before (q.filter f) c a b := by
  obtain ⟨rest, hrest, hsub⟩ := h
  have hcs : [c].filter f = [c] := by simp [hc]
  refine ⟨rest.filter f, ?_, ?_⟩
  · obtain ⟨xs, ys, rfl, hys⟩ := exists_halves hrest
    have := congrArg (List.filter f) hys
    rw [List.filter_append, List.filter_append, hcs] at this
    rw [this, List.filter_append]
    exact List.isRotated_append
  · have := hsub.filter f
    rw [List.filter_append, hcs] at this
    simpa [ha, hb] using this

theorem sublist_of_notMem {l zs : List α} (h : a :: l <+ xs ++ zs) (ha : a ∉ xs) : a :: l <+ zs := by
  induction xs with
  | nil => exact h
  | cons x xs ih =>
    cases h with
    | cons _ h => exact ih h fun hm => ha (List.mem_cons_of_mem x hm)
    | cons_cons _ h => exact absurd List.mem_cons_self ha

/-- The turn passes to `d`, which comes before `a`. -/
theorem before_advance (hrest : q ~r xs ++ d :: ys ++ [c]) (h : [a, b] <+ xs ++ d :: ys ++ [c])
    (hxs : a ∉ xs) (hd : a ≠ d) : Before q d a b := by
  refine ⟨ys ++ [c] ++ xs, ?_, ?_⟩
  · refine hrest.trans ?_
    have hsplit : xs ++ d :: ys ++ [c] = (xs ++ [d]) ++ (ys ++ [c]) := by simp
    rw [hsplit, List.append_assoc (ys ++ [c])]
    exact List.isRotated_append
  · have htail : [a, b] <+ ys ++ [c] := by
      have hsplit : xs ++ d :: ys ++ [c] = (xs ++ [d]) ++ (ys ++ [c]) := by simp
      rw [hsplit] at h
      refine sublist_of_notMem h ?_
      simp [hxs, hd]
    exact htail.trans ((List.sublist_append_left _ _).trans (List.sublist_append_left _ _))

/-- Whoever comes before the first one that is ready is not ready. -/
theorem mem_of_sublist_pair {zs : List α} (h : [a, b] <+ xs ++ b :: zs) (hnodup : (xs ++ b :: zs).Nodup) :
    a ∈ xs := by
  by_contra ha
  have hab : a ≠ b := by
    rintro rfl
    exact absurd (hnodup.sublist h) (by simp)
  have htail : [a, b] <+ zs := by
    have h' := sublist_of_notMem h ha
    cases h' with
    | cons _ h' => exact h'
    | cons_cons _ h' => exact absurd rfl hab
  have hb : b ∈ zs := htail.subset (by simp)
  exact (List.nodup_cons.mp (List.nodup_append.mp hnodup).2.1).1 hb

end Turns

/-! ## 2. The system -/

/-- Who takes part, whose turn it is, and who has ever taken part. -/
structure RoundRobin (α : Type) where
  ring : List α
  current : α
  seen : Set α
  nodup : ring.Nodup
  mem : current ∈ ring
  sub : ∀ a ∈ ring, a ∈ seen

namespace RoundRobin

variable {s t : RoundRobin α} {ready : α → Prop} {a b : α}

/-- One step, where `ready` says who is ready. -/
inductive Step (ready : α → Prop) (s t : RoundRobin α) : Prop
  | stay (hring : t.ring = s.ring) (hcur : t.current = s.current) (hseen : t.seen = s.seen)
  | join {a : α} (hnew : a ∉ s.seen) (hring : t.ring = s.ring ++ [a]) (hcur : t.current = s.current)
      (hseen : ∀ b, b ∈ t.seen ↔ b = a ∨ b ∈ s.seen)
  | leave {f : α → Bool} (hring : t.ring = s.ring.filter f) (hcur : t.current = s.current)
      (hseen : t.seen = s.seen)
  | pass {xs ys : List α} (hpass : s.ring ~r xs ++ t.current :: ys ++ [s.current])
      (hskip : ∀ a ∈ xs, ¬ ready a) (hring : t.ring = s.ring) (hseen : t.seen = s.seen)

/-- The turn passes to `a`. -/
def PassesTo (s t : RoundRobin α) (a : α) : Prop := t.current ≠ s.current ∧ t.current = a

/-- `b` waits for its turn, which comes before the next turn of `a`; or `a` has left for good. -/
structure Waits (s : RoundRobin α) (a b : α) : Prop where
  ne : b ≠ s.current
  seen : a ∈ s.seen
  order : Before s.ring s.current b a ∨ a ∉ s.ring

/-- **One step** keeps `b` waiting before `a`, unless the turn passes to `b`. -/
theorem Waits.step (h : s.Waits a b) (hstep : Step ready s t) (hready : ready b) (hb : b ∈ t.ring)
    (hpass : ¬ PassesTo s t b) : t.Waits a b := by
  have hne : b ≠ t.current := by
    intro hbt
    exact hpass ⟨fun hst => h.ne (hbt.trans hst), hbt.symm⟩
  cases hstep with
  | stay hring hcur hseen =>
    refine ⟨hne, hseen ▸ h.seen, ?_⟩
    rw [hring, hcur]
    exact h.order
  | join hnew hring hcur hseen =>
    refine ⟨hne, (hseen a).mpr (Or.inr h.seen), ?_⟩
    rw [hring, hcur]
    refine h.order.imp (fun ho => ho.snoc _) fun hgone hmem => ?_
    rcases List.mem_append.mp hmem with hmem | hmem
    · exact hgone hmem
    · rw [List.mem_singleton] at hmem
      exact hnew (hmem ▸ h.seen)
  | leave hring hcur hseen =>
    rename_i f
    refine ⟨hne, hseen ▸ h.seen, ?_⟩
    have hkept : ∀ {x}, x ∈ t.ring → f x := fun hx => by
      rw [hring] at hx
      exact (List.mem_filter.mp hx).2
    by_cases ha : a ∈ t.ring
    · refine Or.inl ?_
      rw [hcur, hring]
      refine Before.filter (h.order.resolve_right fun hgone => hgone ?_) (hkept (hcur ▸ t.mem))
        (hkept hb) (hkept ha)
      rw [hring] at ha
      exact (List.mem_filter.mp ha).1
    · exact Or.inr ha
  | pass hturn hskip hring hseen =>
    refine ⟨hne, hseen ▸ h.seen, ?_⟩
    rw [hring]
    refine h.order.imp_left fun ho => ?_
    obtain ⟨rest, hrest, hsub⟩ := ho
    have hsame := rotated_unique (hrest.symm.trans hturn) (hrest.nodup_iff.mp s.nodup)
    rw [hsame] at hsub
    exact before_advance hturn hsub (fun hm => hskip b hm hready) hne

/-- While `b` waits, the turn does not pass to `a`. -/
theorem Waits.not_passesTo (h : s.Waits a b) (hstep : Step ready s t) (hready : ready b) :
    ¬ PassesTo s t a := by
  rintro ⟨hne, rfl⟩
  cases hstep with
  | stay hring hcur hseen => exact hne hcur
  | join hnew hring hcur hseen => exact hne hcur
  | leave hring hcur hseen => exact hne hcur
  | pass hturn hskip hring hseen =>
    obtain ⟨rest, hrest, hsub⟩ := h.order.resolve_right fun hgone => hgone (hring ▸ t.mem)
    have hsame := rotated_unique (hrest.symm.trans hturn) (hrest.nodup_iff.mp s.nodup)
    have hnodup := hturn.nodup_iff.mp s.nodup
    rw [hsame] at hsub
    rw [List.append_assoc, List.cons_append] at hsub hnodup
    exact hskip b (mem_of_sublist_pair hsub hnodup) hready

/-- **Fairness.**  If the turn passes to `a` at moment `i` and again at moment `j`, whoever took part
all the time in between, and was ready whenever it was not its turn, got the turn in between. -/
theorem fair (σ : Nat → RoundRobin α) (ready : Nat → α → Prop) {i j : Nat}
    (hrun : ∀ k, i < k → k ≤ j → Step (ready k) (σ k) (σ (k + 1))) (hij : i < j) (hab : b ≠ a)
    (hi : PassesTo (σ i) (σ (i + 1)) a) (hj : PassesTo (σ j) (σ (j + 1)) a)
    (hb : ∀ k, i < k → k ≤ j → b ∈ (σ k).ring ∧ (b = (σ k).current ∨ ready k b)) :
    ∃ k, i < k ∧ k < j ∧ PassesTo (σ k) (σ (k + 1)) b := by
  by_contra hnone
  have hwait : ∀ k, i < k → k ≤ j → (σ k).Waits a b := by
    intro k hik
    induction k, hik using Nat.le_induction with
    | base =>
      intro hk
      have hcur : (σ (i + 1)).current = a := hi.2
      refine ⟨hcur ▸ hab, hcur ▸ (σ (i + 1)).sub _ (σ (i + 1)).mem, Or.inl ?_⟩
      rw [hcur]
      exact before_self (hcur ▸ (σ (i + 1)).mem) (hb _ (Nat.lt_succ_self i) hk).1 hab
    | succ k hik ih =>
      intro hk
      have hk' : k ≤ j := Nat.le_of_succ_le hk
      have hw := ih hk'
      have hready : ready k b := (hb k hik hk').2.resolve_left hw.ne
      exact hw.step (hrun k hik hk') hready (hb (k + 1) (Nat.lt_succ_of_lt hik) hk).1
        fun hp => hnone ⟨k, hik, hk, hp⟩
  have hw := hwait j hij le_rfl
  exact hw.not_passesTo (hrun j hij le_rfl) ((hb j hij le_rfl).2.resolve_left hw.ne) hj

end RoundRobin

end AcornOS.Lib
