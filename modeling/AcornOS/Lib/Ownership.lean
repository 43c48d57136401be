/-
# Owners of a shared pool

A pool of resources, some of them in use, and owners that each hold some of those in use.  `Owns`
says that no resource has two owners and that what is owned is in use.  It is kept by the two
things an owner can do with the pool:

* `Owns.gain`: one owner, new or old, takes resources that were not in use;
* `Owns.lose`: one owner leaves, and no more than its resources go out of use.

An owner may always hold LESS than before: what it no longer holds is lost to the pool, but nobody
else has it.
-/
import Mathlib

namespace AcornOS.Lib

variable {ι F : Type} {used used' : Set F} {owners owners' : Set ι} {own own' : ι → Set F} {i : ι}

/-- `Owns used owners own`: owner `i` of `owners` holds `own i`. -/
structure Owns (used : Set F) (owners : Set ι) (own : ι → Set F) : Prop where
  used : ∀ i ∈ owners, own i ⊆ used
  disjoint : owners.PairwiseDisjoint own

/-- What one owner holds, another does not. -/
theorem Owns.notMem (h : Owns used owners own) {j : ι} (hi : i ∈ owners) (hj : j ∈ owners)
    (hne : i ≠ j) {q : F} (hq : q ∈ own i) : q ∉ own j :=
  Set.disjoint_left.mp (h.disjoint hi hj hne) hq

/-- **One owner takes `N`.** -/
theorem Owns.gain (h : Owns used owners own) {N : Set F} (hN : ∀ q ∈ N, q ∉ used)
    (hused : ∀ q, q ∈ used ∨ q ∈ N → q ∈ used')
    (hothers : ∀ j ∈ owners', j ≠ i → j ∈ owners ∧ own' j ⊆ own j)
    (hown : ∀ q ∈ own' i, i ∈ owners ∧ q ∈ own i ∨ q ∈ N) : Owns used' owners' own' := by
  -- whatever the owner has now, the others do not have
  have hdisj : ∀ j ∈ owners', j ≠ i → Disjoint (own' i) (own' j) := by
    intro j hj hji
    obtain ⟨hj', hsub⟩ := hothers j hj hji
    refine Set.disjoint_left.mpr fun q hqi hqj => ?_
    rcases hown q hqi with ⟨hi, hq⟩ | hq
    · exact h.notMem hi hj' hji.symm hq (hsub hqj)
    · exact hN q hq (h.used j hj' (hsub hqj))
  refine ⟨fun j hj q hq => hused q ?_, fun j hj k hk hjk => ?_⟩
  · by_cases hji : j = i
    · subst hji
      rcases hown q hq with ⟨hj', hq⟩ | hq
      · exact Or.inl (h.used j hj' hq)
      · exact Or.inr hq
    · obtain ⟨hj', hsub⟩ := hothers j hj hji
      exact Or.inl (h.used j hj' (hsub hq))
  · by_cases hji : j = i
    · subst hji
      exact hdisj k hk hjk.symm
    by_cases hki : k = i
    · subst hki
      exact (hdisj j hj hji).symm
    obtain ⟨hj', hsubj⟩ := hothers j hj hji
    obtain ⟨hk', hsubk⟩ := hothers k hk hki
    exact (h.disjoint hj' hk' hjk).mono hsubj hsubk

/-- **One owner leaves.** -/
theorem Owns.lose (h : Owns used owners own) (hi : i ∈ owners)
    (hused : ∀ q ∈ used, q ∉ own i → q ∈ used')
    (hothers : ∀ j ∈ owners', j ≠ i ∧ j ∈ owners ∧ own' j ⊆ own j) : Owns used' owners' own' := by
  refine ⟨fun j hj q hq => ?_, fun j hj k hk hjk => ?_⟩
  · obtain ⟨hji, hj', hsub⟩ := hothers j hj
    exact hused q (h.used j hj' (hsub hq)) (h.notMem hj' hi hji (hsub hq))
  · obtain ⟨-, hj', hsubj⟩ := hothers j hj
    obtain ⟨-, hk', hsubk⟩ := hothers k hk
    exact (h.disjoint hj' hk' hjk).mono hsubj hsubk

end AcornOS.Lib
