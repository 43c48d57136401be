/-
# Sequences cut into chunks

A sequence kept as a list of chunks of a fixed capacity: every chunk but the last is full, and the
last holds something (`Packed`).  So the chunks are determined by the sequence, and there are as few
of them as can be.

A writer goes on in one of two ways: it opens a new chunk behind chunks that are all full
(`Packed.snoc`), or it adds to the last one what still fits (`Packed.extend`).
-/
import Mathlib

namespace AcornOS.Lib

variable {α : Type} {cap : Nat} {l : List (List α)} {c x : List α}

/-- Every chunk but the last is full, and the last one is not empty. -/
structure Packed (cap : Nat) (l : List (List α)) : Prop where
  full : ∀ c ∈ l.dropLast, c.length = cap
  last : ∀ c ∈ l.getLast?, 0 < c.length ∧ c.length ≤ cap

theorem packed_nil : Packed cap ([] : List (List α)) where
  full := by simp
  last := by simp

theorem packed_concat : Packed cap (l ++ [c]) ↔
    (∀ d ∈ l, d.length = cap) ∧ 0 < c.length ∧ c.length ≤ cap := by
  constructor
  · intro h
    have hfull := h.full
    rw [List.dropLast_concat] at hfull
    exact ⟨hfull, h.last c (by simp)⟩
  · rintro ⟨hfull, hlast⟩
    refine ⟨?_, ?_⟩
    · rw [List.dropLast_concat]
      exact hfull
    · intro d hd
      obtain rfl : c = d := by simpa using hd
      exact hlast

/-- If the last chunk is full too, all of them are. -/
theorem Packed.all_full (h : Packed cap l) (hlast : ∀ c ∈ l.getLast?, c.length = cap) :
    ∀ d ∈ l, d.length = cap := by
  intro d hd
  induction l using List.reverseRecOn with
  | nil => cases hd
  | append_singleton l c _ =>
    rcases List.mem_append.mp hd with hd | hd
    · exact (packed_concat.mp h).1 d hd
    · rw [List.mem_singleton.mp hd]
      exact hlast c (by simp)

/-- A new chunk behind full ones. -/
theorem Packed.snoc (h : Packed cap l) (hlast : ∀ c ∈ l.getLast?, c.length = cap)
    (hpos : 0 < x.length) (hle : x.length ≤ cap) : Packed cap (l ++ [x]) :=
  packed_concat.mpr ⟨h.all_full hlast, hpos, hle⟩

/-- More in the last chunk. -/
theorem Packed.extend (h : Packed cap (l ++ [c])) (hle : (c ++ x).length ≤ cap) :
    Packed cap (l ++ [c ++ x]) := by
  obtain ⟨hfull, hpos, -⟩ := packed_concat.mp h
  refine packed_concat.mpr ⟨hfull, ?_, hle⟩
  rw [List.length_append]
  exact Nat.add_pos_left hpos _

theorem length_flatten_of_full (h : ∀ d ∈ l, d.length = cap) : l.flatten.length = cap * l.length := by
  induction l with
  | nil => simp
  | cons d l ih =>
    rw [List.flatten_cons, List.length_append, List.length_cons, h d (by simp),
      ih fun e he => h e (List.mem_cons_of_mem d he)]
    ring

/-- The chunks hold at most their capacity, and all but the last of them are full. -/
theorem Packed.length_bounds (h : Packed cap l) :
    l.flatten.length ≤ cap * l.length ∧ cap * l.length < l.flatten.length + cap ∨ l = [] := by
  induction l using List.reverseRecOn with
  | nil => exact Or.inr rfl
  | append_singleton l c _ =>
    obtain ⟨hfull, hpos, hle⟩ := packed_concat.mp h
    have hlen := length_flatten_of_full hfull
    refine Or.inl ?_
    rw [List.flatten_append, List.length_append, hlen, List.length_append, List.length_singleton,
      Nat.mul_add]
    simp only [List.flatten_cons, List.flatten_nil, List.append_nil, Nat.mul_one]
    omega

/-- There are no more chunks than elements. -/
theorem Packed.length_le (h : Packed cap l) : l.length ≤ l.flatten.length := by
  induction l using List.reverseRecOn with
  | nil => simp
  | append_singleton l c _ =>
    obtain ⟨hfull, hpos, hle⟩ := packed_concat.mp h
    have hlen := length_flatten_of_full hfull
    have hmul : l.length ≤ cap * l.length := Nat.le_mul_of_pos_left _ (by omega)
    simp only [List.flatten_append, List.length_append, List.length_singleton, List.flatten_cons,
      List.flatten_nil, List.append_nil, hlen]
    omega

end AcornOS.Lib
