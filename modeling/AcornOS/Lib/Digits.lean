/-
# Numerals

Printing a number digit by digit, and reading it back.

* **`digitLoop`** is the loop that takes the last digit off a number until nothing is left; it finds the
  digits in the WRONG order.  It finds the digits of `Nat.digits` (`digitLoop_eq`).
* **`numeral`** is what is to be printed: the digits in the right order, and one digit for 0.
* **`readNumeral`** multiplies and adds.  `readNumeral_numeral` and `numeral_readNumeral`: the two are
  inverse, on the numbers and on the strings of digits without a leading zero.
* **`fixedNumeral`** has a fixed width, with leading zeros.
-/
import Mathlib

namespace AcornOS.Lib

section Digits

variable {α : Type} (digit : Nat → α) {value : α → Nat} {b n : Nat}

/-! ## 1. Printing -/

/-- `while(n > 0) { *p++ = digit(n % b); n /= b; }`: what is put at `p`.  The fuel bounds the number of
rounds. -/
def digitLoop (b : Nat) : (fuel : Nat) → Nat → List α
  | 0, _ => []
  | fuel + 1, n => if n = 0 then [] else digit (n % b) :: digitLoop b fuel (n / b)

theorem digitLoop_eq {fuel : Nat} (hb : 1 < b) (h : n < b ^ fuel) :
    digitLoop digit b fuel n = (Nat.digits b n).map digit := by
  induction fuel generalizing n with
  | zero =>
    obtain rfl : n = 0 := Nat.lt_one_iff.mp h
    rw [Nat.digits_zero]
    rfl
  | succ fuel ih =>
    rw [digitLoop]
    split
    · rename_i hzero
      rw [hzero, Nat.digits_zero, List.map_nil]
    · rename_i hpos
      rw [Nat.digits_def' hb (Nat.pos_of_ne_zero hpos), List.map_cons, ih]
      exact Nat.div_lt_of_lt_mul (by rwa [← Nat.pow_succ'])

/-- The numeral of a number, the first digit first. -/
def numeral (b n : Nat) : List α := if n = 0 then [digit 0] else ((Nat.digits b n).map digit).reverse

theorem numeral_of_pos (h : 0 < n) : numeral digit b n = ((Nat.digits b n).map digit).reverse :=
  if_neg h.ne'

/-- Only the digits below the base matter. -/
theorem numeral_congr {digit' : Nat → α} (hb : 1 < b) (h : ∀ d < b, digit d = digit' d) (n : Nat) :
    numeral digit b n = numeral digit' b n := by
  rw [numeral, numeral, h 0 (by omega),
    List.map_congr_left fun d hd => h d (Nat.digits_lt_base hb hd)]

theorem numeral_ne_nil (b n : Nat) : numeral digit b n ≠ [] := by
  rw [numeral]
  split
  · exact List.cons_ne_nil _ _
  · rename_i hpos
    rw [ne_eq, List.reverse_eq_nil_iff, List.map_eq_nil_iff]
    exact Nat.digits_ne_nil_iff_ne_zero.mpr hpos

theorem length_numeral_le {k : Nat} (hb : 1 < b) (hk : 0 < k) (h : n < b ^ k) :
    (numeral digit b n).length ≤ k := by
  rw [numeral]
  split
  · exact hk
  · rw [List.length_reverse, List.length_map]
    exact (Nat.digits_length_le_iff hb n).mpr h

theorem mem_numeral (hb : 1 < b) {x : α} (hx : x ∈ numeral digit b n) : ∃ d < b, x = digit d := by
  rw [numeral] at hx
  split at hx
  · exact ⟨0, by omega, List.mem_singleton.mp hx⟩
  · rw [List.mem_reverse, List.mem_map] at hx
    obtain ⟨d, hd, rfl⟩ := hx
    exact ⟨d, Nat.digits_lt_base hb hd, rfl⟩

/-! ## 2. Reading -/

/-- The number that a string of digits stands for, begun at `start`. -/
def readFrom (value : α → Nat) (b start : Nat) (s : List α) : Nat :=
  s.foldl (fun acc x => acc * b + value x) start

/-- The number that a string of digits stands for. -/
def readNumeral (value : α → Nat) (b : Nat) (s : List α) : Nat := readFrom value b 0 s

theorem readNumeral_reverse (s : List α) :
    readNumeral value b s.reverse = Nat.ofDigits b (s.map value) := by
  induction s with
  | nil => rfl
  | cons x s ih =>
    rw [readNumeral, readFrom, List.reverse_cons, List.foldl_append]
    change readNumeral value b s.reverse * b + value x = _
    rw [ih, List.map_cons, Nat.ofDigits_cons, Nat.mul_comm, Nat.add_comm]

theorem readNumeral_eq (s : List α) : readNumeral value b s = Nat.ofDigits b (s.reverse.map value) := by
  rw [← readNumeral_reverse, List.reverse_reverse]

/-- **What is printed is read back.** -/
theorem readNumeral_numeral (hb : 1 < b) (hvalue : ∀ d < b, value (digit d) = d) (n : Nat) :
    readNumeral value b (numeral digit b n) = n := by
  rw [numeral]
  split
  · rename_i hzero
    rw [hzero, readNumeral, readFrom, List.foldl_cons, List.foldl_nil, hvalue 0 (by omega), Nat.zero_mul]
  · have hmap : (Nat.digits b n).map (value ∘ digit) = Nat.digits b n :=
      (List.map_congr_left fun d hd => hvalue d (Nat.digits_lt_base hb hd)).trans (List.map_id _)
    rw [readNumeral_reverse, List.map_map, hmap, Nat.ofDigits_digits]

/-- A string that may be a numeral: digits, with no zero before another digit. -/
structure Canonical (digit : Nat → α) (value : α → Nat) (b : Nat) (s : List α) : Prop where
  ne_nil : s ≠ []
  digits : ∀ x ∈ s, value x < b ∧ digit (value x) = x
  lead : ∀ x rest, s = x :: rest → value x = 0 → rest = []

/-- **What is read is printed again**, if it is a numeral at all. -/
theorem numeral_readNumeral {s : List α} (hb : 1 < b) (h : Canonical digit value b s) :
    numeral digit b (readNumeral value b s) = s := by
  obtain ⟨x, rest, rfl⟩ := List.exists_cons_of_ne_nil h.ne_nil
  by_cases hzero : value x = 0
  · obtain rfl := h.lead x rest rfl hzero
    have hread : readNumeral value b [x] = 0 := by
      rw [readNumeral_eq]
      exact (Nat.ofDigits_singleton).trans hzero
    have hx := (h.digits x List.mem_cons_self).2
    rw [hzero] at hx
    rw [hread, numeral, if_pos rfl, hx]
  · have hlast : ((x :: rest).reverse.map value).getLast (by simp) = value x := by
      simp only [List.reverse_cons, List.map_append, List.map_cons, List.map_nil]
      exact List.getLast_append_singleton _
    have hdigits : Nat.digits b (readNumeral value b (x :: rest)) = (x :: rest).reverse.map value := by
      rw [readNumeral_eq]
      refine Nat.digits_ofDigits b hb _ (fun d hd => ?_) fun _ => hlast ▸ hzero
      obtain ⟨y, hy, rfl⟩ := List.mem_map.mp hd
      exact (h.digits y (List.mem_reverse.mp hy)).1
    have hpos : 0 < readNumeral value b (x :: rest) := by
      have hne : Nat.digits b (readNumeral value b (x :: rest)) ≠ [] := by
        rw [hdigits]
        simp
      exact Nat.pos_of_ne_zero (Nat.digits_ne_nil_iff_ne_zero.mp hne)
    rw [numeral_of_pos digit hpos, hdigits, List.map_map, ← List.map_reverse, List.reverse_reverse]
    refine (List.map_congr_left fun y hy => ?_).trans (List.map_id _)
    exact (h.digits y hy).2

theorem numeral_canonical (hb : 1 < b) (hvalue : ∀ d < b, value (digit d) = d) (n : Nat) :
    Canonical digit value b (numeral digit b n) := by
  refine ⟨numeral_ne_nil digit b n, fun x hx => ?_, fun x rest heq hzero => ?_⟩
  · obtain ⟨d, hd, rfl⟩ := mem_numeral digit hb hx
    rw [hvalue d hd]
    exact ⟨hd, rfl⟩
  · rw [numeral] at heq
    split at heq
    · exact (List.cons.inj heq).2.symm
    · rename_i hpos
      exfalso
      have hlast := Nat.getLast_digit_ne_zero b hpos
      have hne : Nat.digits b n ≠ [] := Nat.digits_ne_nil_iff_ne_zero.mpr hpos
      have hx : x = digit ((Nat.digits b n).getLast hne) := by
        have hhead := congrArg List.head? heq
        rw [List.head?_reverse, List.getLast?_map, List.getLast?_eq_some_getLast hne] at hhead
        exact (Option.some.inj hhead).symm
      rw [hx, hvalue _ (Nat.digits_lt_base hb (List.getLast_mem hne))] at hzero
      exact hlast hzero

/-! ## 3. A fixed width -/

/-- The numeral with `width` digits, of what the number is modulo `b ^ width`. -/
def fixedNumeral (b : Nat) : (width : Nat) → Nat → List α
  | 0, _ => []
  | width + 1, n => fixedNumeral b width (n / b) ++ [digit (n % b)]

theorem length_fixedNumeral (width n : Nat) : (fixedNumeral digit b width n).length = width := by
  induction width generalizing n with
  | zero => rfl
  | succ width ih => rw [fixedNumeral, List.length_append, ih, List.length_singleton]

/-- What is read is the number modulo `b ^ width`. -/
theorem readNumeral_fixedNumeral (hb : 0 < b) (hvalue : ∀ d < b, value (digit d) = d) (width n : Nat) :
    readNumeral value b (fixedNumeral digit b width n) = n % b ^ width := by
  induction width generalizing n with
  | zero => rw [fixedNumeral, Nat.pow_zero, Nat.mod_one, readNumeral, readFrom, List.foldl_nil]
  | succ width ih =>
    rw [fixedNumeral, readNumeral, readFrom, List.foldl_append]
    change readNumeral value b (fixedNumeral digit b width (n / b)) * b + value (digit (n % b)) = _
    rw [ih, hvalue _ (Nat.mod_lt _ hb), Nat.pow_succ', Nat.mod_mul, Nat.mul_comm, Nat.add_comm]

theorem mem_fixedNumeral (hb : 0 < b) {width : Nat} {x : α} (hx : x ∈ fixedNumeral digit b width n) :
    ∃ d < b, x = digit d := by
  induction width generalizing n with
  | zero => cases hx
  | succ width ih =>
    rw [fixedNumeral, List.mem_append, List.mem_singleton] at hx
    rcases hx with hx | rfl
    · exact ih hx
    · exact ⟨_, Nat.mod_lt _ hb, rfl⟩

end Digits

end AcornOS.Lib
