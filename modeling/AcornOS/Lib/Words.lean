/-
# Words

The words of a string: its maximal substrings without a separator.

* **`words`** splits at EVERY separator and leaves out the empty pieces.
* A scanner that stands at a word finds the words one by one: the first is what comes before the next
  separator, and the others are the words of what is left (`words_of_head`).
* **`firstWord`** skips separators first.
-/
import Mathlib

namespace AcornOS.Lib

section Words

variable {α : Type} [DecidableEq α] {sep : α} {s w rest : List α}

/-- The maximal substrings without the separator, none of them empty. -/
def words (sep : α) (s : List α) : List (List α) := (s.splitOn sep).filter (· ≠ [])

/-- The first word, and what follows it. -/
def firstWord (sep : α) (s : List α) : Option (List α × List α) :=
  let s := s.dropWhile (· = sep)
  if s = [] then none else some (s.takeWhile (· ≠ sep), s.dropWhile (· ≠ sep))

theorem words_nil : words sep [] = [] := by simp [words]

theorem words_sep (s : List α) : words sep (sep :: s) = words sep s := by
  rw [words, ← List.nil_append (sep :: s), List.splitOn_append_cons_self, List.filter_append,
    List.splitOn_nil]
  rfl

theorem words_append_sep (hw : sep ∉ w) (hne : w ≠ []) (s : List α) :
    words sep (w ++ sep :: s) = w :: words sep s := by
  rw [words, List.splitOn_append_cons_self, List.filter_append, List.splitOn_eq_singleton hw,
    List.filter_singleton]
  simp only [ne_eq, hne, not_false_eq_true, decide_true]
  rfl

theorem words_single (hw : sep ∉ w) (hne : w ≠ []) : words sep w = [w] := by
  rw [words, List.splitOn_eq_singleton hw, List.filter_singleton]
  simp [hne]

theorem nil_notMem_words : [] ∉ words sep s := by
  intro h
  simpa using (List.mem_filter.mp h).2

/-- Separators in front do not matter. -/
theorem words_dropWhile (s : List α) : words sep (s.dropWhile (· = sep)) = words sep s := by
  induction s with
  | nil => rfl
  | cons x s ih =>
    by_cases hx : x = sep
    · rw [hx, words_sep, List.dropWhile_cons_of_pos (by simp), ih]
    · rw [List.dropWhile_cons_of_neg (by simp [hx])]

theorem sep_notMem_takeWhile (sep : α) (s : List α) : sep ∉ s.takeWhile (· ≠ sep) := by
  intro h
  simpa using List.mem_takeWhile_imp h

/-- What follows a word begins with a separator. -/
theorem dropWhile_ne_cases (sep : α) (s : List α) : s.dropWhile (· ≠ sep) = [] ∨
    ∃ rest, s.dropWhile (· ≠ sep) = sep :: rest := by
  induction s with
  | nil => exact .inl rfl
  | cons x s ih =>
    by_cases hx : x = sep
    · rw [List.dropWhile_cons_of_neg (by simp [hx]), hx]
      exact .inr ⟨s, rfl⟩
    · rw [List.dropWhile_cons_of_pos (by simp [hx])]
      exact ih

/-- What is left after the separators does not begin with one. -/
theorem head_dropWhile_eq (s : List α) : (s.dropWhile (· = sep)).head? ≠ some sep := by
  induction s with
  | nil => exact nofun
  | cons x s ih =>
    by_cases hx : x = sep
    · rw [List.dropWhile_cons_of_pos (by simp [hx])]
      exact ih
    · rw [List.dropWhile_cons_of_neg (by simp [hx]), List.head?_cons]
      exact fun h => hx (Option.some.inj h)

theorem takeWhile_ne_nil (hne : s ≠ []) (hhead : s.head? ≠ some sep) : s.takeWhile (· ≠ sep) ≠ [] := by
  obtain ⟨x, s, rfl⟩ := List.exists_cons_of_ne_nil hne
  have hx : x ≠ sep := fun h => hhead (congrArg some h)
  rw [List.takeWhile_cons_of_pos (by simp [hx])]
  exact List.cons_ne_nil _ _

/-- A word at the front is the first. -/
theorem words_of_head (hne : s ≠ []) (hhead : s.head? ≠ some sep) :
    words sep s = s.takeWhile (· ≠ sep) :: words sep (s.dropWhile (· ≠ sep)) := by
  have hword := takeWhile_ne_nil hne hhead
  have hclean := sep_notMem_takeWhile sep s
  have hsplit : s.takeWhile (· ≠ sep) ++ s.dropWhile (· ≠ sep) = s := List.takeWhile_append_dropWhile
  rcases dropWhile_ne_cases sep s with hend | ⟨rest, hrest⟩
  · rw [hend, List.append_nil] at hsplit
    rw [hend, words_nil, hsplit]
    rw [hsplit] at hclean
    exact words_single hclean hne
  · rw [hrest] at hsplit
    rw [hrest, words_sep, ← words_append_sep hclean hword, hsplit]

theorem firstWord_of_head (hne : s ≠ []) (hhead : s.head? ≠ some sep) :
    firstWord sep s = some (s.takeWhile (· ≠ sep), s.dropWhile (· ≠ sep)) := by
  obtain ⟨x, s, rfl⟩ := List.exists_cons_of_ne_nil hne
  have hx : x ≠ sep := fun h => hhead (congrArg some h)
  have hskip : (x :: s).dropWhile (· = sep) = x :: s := List.dropWhile_cons_of_neg (by simp [hx])
  rw [firstWord]
  simp only [hskip, if_neg hne]

end Words

end AcornOS.Lib
