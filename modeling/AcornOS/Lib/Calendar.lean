/-
# The Gregorian calendar

Dates of the proleptic Gregorian calendar, years before 1 included, and how many days lie between them.

* A `Date` carries the proof that there IS such a day.
* **`Date.next`** is the day after; the calendar is nothing more than that.  `Date.induction`: whatever
  holds on one day, and on a day just if it holds on the next, holds on all.
* **`Date.dayNumber`** counts the days from 1 January 1970, by years, months and days.  It is 0 then and
  one more each day (`dayNumber_epoch`, `dayNumber_next`), and nothing else is (`dayNumber_unique`).
-/
import Mathlib

namespace AcornOS.Lib

/-! ## 1. Dates -/

/-- Every fourth year, but of the hundreds only every fourth. -/
def IsLeap (year : Int) : Prop := year % 4 = 0 ∧ (year % 100 ≠ 0 ∨ year % 400 = 0)

instance (year : Int) : Decidable (IsLeap year) := inferInstanceAs (Decidable (_ ∧ (_ ∨ _)))

/-- The days of a month, which is counted from 1. -/
def daysInMonth (year : Int) (month : Nat) : Nat :=
  if month = 2 then if IsLeap year then 29 else 28
  else if month = 4 ∨ month = 6 ∨ month = 9 ∨ month = 11 then 30
  else 31

theorem daysInMonth_pos (year : Int) (month : Nat) : 0 < daysInMonth year month := by
  unfold daysInMonth
  split_ifs <;> decide

theorem daysInMonth_le (year : Int) (month : Nat) : daysInMonth year month ≤ 31 := by
  unfold daysInMonth
  split_ifs <;> decide

/-- A day of the calendar. -/
@[ext]
structure Date where
  year : Int
  month : Nat
  day : Nat
  month_pos : 1 ≤ month
  month_le : month ≤ 12
  day_pos : 1 ≤ day
  day_le : day ≤ daysInMonth year month
deriving Repr, DecidableEq

/-- The first day of a month. -/
def firstOf (year : Int) (month : Nat) (hpos : 1 ≤ month) (hle : month ≤ 12) : Date :=
  ⟨year, month, 1, hpos, hle, le_rfl, daysInMonth_pos year month⟩

/-- New Year's Day. -/
def newYear (year : Int) : Date := firstOf year 1 le_rfl (by decide)

/-- 1 January 1970. -/
def epochDate : Date := newYear 1970

/-- The day after. -/
def Date.next (d : Date) : Date :=
  if h : d.day < daysInMonth d.year d.month then
    ⟨d.year, d.month, d.day + 1, d.month_pos, d.month_le, Nat.le_add_left 1 d.day, h⟩
  else if h : d.month < 12 then firstOf d.year (d.month + 1) (Nat.le_add_left 1 d.month) h
  else newYear (d.year + 1)

section Next

variable {d : Date}

theorem Date.next_day (h : d.day < daysInMonth d.year d.month) : d.next =
    ⟨d.year, d.month, d.day + 1, d.month_pos, d.month_le, Nat.le_add_left 1 d.day, h⟩ := dif_pos h

theorem Date.next_month (h : d.day = daysInMonth d.year d.month) (hm : d.month < 12) :
    d.next = firstOf d.year (d.month + 1) (Nat.le_add_left 1 d.month) hm := by
  rw [Date.next, dif_neg h.not_lt, dif_pos hm]

theorem Date.next_year (h : d.day = daysInMonth d.year d.month) (hm : d.month = 12) :
    d.next = newYear (d.year + 1) := by
  rw [Date.next, dif_neg h.not_lt, dif_neg hm.not_lt]

theorem Date.year_next_le : d.next.year ≤ d.year + 1 := by
  unfold Date.next
  split_ifs
  · exact Int.le.intro 1 rfl
  · exact Int.le.intro 1 rfl
  · exact le_rfl

theorem Date.le_year_next : d.year ≤ d.next.year := by
  unfold Date.next
  split_ifs
  · exact le_rfl
  · exact le_rfl
  · exact Int.le.intro 1 rfl

end Next

/-! ## 2. Every day is reached -/

section Reach

variable {P : Date → Prop}

/-- From the first day of a month to each day of it. -/
theorem day_iff_firstOf (hnext : ∀ d, P d ↔ P d.next) (year : Int) (month : Nat) (hpos : 1 ≤ month)
    (hle : month ≤ 12) (day : Nat) (hday : 1 ≤ day) (hlast : day ≤ daysInMonth year month) :
    P ⟨year, month, day, hpos, hle, hday, hlast⟩ ↔ P (firstOf year month hpos hle) := by
  induction day, hday using Nat.le_induction with
  | base => exact Iff.rfl
  | succ day hday ih =>
    let today : Date := ⟨year, month, day, hpos, hle, hday, Nat.le_of_succ_le hlast⟩
    have hstep := hnext today
    rw [Date.next_day (show today.day < daysInMonth today.year today.month from hlast)] at hstep
    exact hstep.symm.trans (ih (Nat.le_of_succ_le hlast))

/-- From New Year's Day to the first day of each month. -/
theorem firstOf_iff_newYear (hnext : ∀ d, P d ↔ P d.next) (year : Int) (month : Nat) (hpos : 1 ≤ month)
    (hle : month ≤ 12) : P (firstOf year month hpos hle) ↔ P (newYear year) := by
  induction month, hpos using Nat.le_induction with
  | base => exact Iff.rfl
  | succ month hpos ih =>
    have hle' : month ≤ 12 := Nat.le_of_succ_le hle
    let today : Date :=
      ⟨year, month, daysInMonth year month, hpos, hle', daysInMonth_pos year month, le_rfl⟩
    have hstep := hnext today
    rw [Date.next_month (show today.day = daysInMonth today.year today.month from rfl) hle,
      day_iff_firstOf hnext] at hstep
    exact hstep.symm.trans (ih hle')

/-- From one year to the next. -/
theorem newYear_iff (hnext : ∀ d, P d ↔ P d.next) (year : Int) :
    P (newYear year) ↔ P (newYear (year + 1)) := by
  let today : Date :=
    ⟨year, 12, daysInMonth year 12, by decide, le_rfl, daysInMonth_pos year 12, le_rfl⟩
  have hstep := hnext today
  rw [Date.next_year (show today.day = daysInMonth today.year today.month from rfl) rfl,
    day_iff_firstOf hnext, firstOf_iff_newYear hnext] at hstep
  exact hstep

/-- **The days are one chain.**  What holds on 1 January 1970, and on each day just if it holds on the
next, holds on every day. -/
theorem Date.induction (hepoch : P epochDate) (hnext : ∀ d, P d ↔ P d.next) (d : Date) : P d := by
  have hyears : ∀ year, P (newYear year) := by
    intro year
    induction year using Int.inductionOn' (b := 1970) with
    | zero => exact hepoch
    | succ year _ ih => exact (newYear_iff hnext year).mp ih
    | pred year _ ih =>
      refine (newYear_iff hnext (year - 1)).mpr ?_
      rw [Int.sub_add_cancel]
      exact ih
  obtain ⟨year, month, day, hpos, hle, hday, hlast⟩ := d
  rw [day_iff_firstOf hnext, firstOf_iff_newYear hnext]
  exact hyears year

end Reach

/-! ## 3. Counting the days -/

/-- The leap years before this one, from the year 1 on; less those from this one on, if it is earlier. -/
def leapsBefore (year : Int) : Int := (year - 1) / 4 - (year - 1) / 100 + (year - 1) / 400

/-- The days of the year before the first of a month. -/
def daysBeforeMonth (year : Int) (month : Nat) : Nat :=
  ((List.range (month - 1)).map fun i => daysInMonth year (i + 1)).sum

/-- The days from 1 January 1970 to this one; negative, if it is earlier. -/
def Date.dayNumber (d : Date) : Int :=
  365 * (d.year - 1970) + (leapsBefore d.year - leapsBefore 1970) + daysBeforeMonth d.year d.month +
    (d.day - 1)

theorem leapsBefore_succ (year : Int) :
    leapsBefore (year + 1) = leapsBefore year + if IsLeap year then 1 else 0 := by
  unfold leapsBefore
  split
  · rename_i hleap
    obtain ⟨h4, h100⟩ := hleap
    omega
  · rename_i hcommon
    rw [IsLeap, not_and_or, not_or] at hcommon
    omega

theorem daysBeforeMonth_succ (year : Int) {month : Nat} (hpos : 1 ≤ month) :
    daysBeforeMonth year (month + 1) = daysBeforeMonth year month + daysInMonth year month := by
  obtain ⟨m, rfl⟩ := Nat.exists_eq_add_of_le' hpos
  rw [daysBeforeMonth, daysBeforeMonth, Nat.add_sub_cancel, Nat.add_sub_cancel, List.range_succ,
    List.map_append, List.sum_append]
  rfl

/-- The months of a year. -/
theorem daysBeforeMonth_end (year : Int) :
    daysBeforeMonth year 12 + daysInMonth year 12 = if IsLeap year then 366 else 365 := by
  simp only [daysBeforeMonth, List.range_succ, List.range_zero, List.nil_append, List.cons_append,
    List.map_cons, List.map_nil, List.sum_cons, List.sum_nil, daysInMonth]
  by_cases hleap : IsLeap year <;> simp [hleap]

theorem dayNumber_epoch : epochDate.dayNumber = 0 := by decide

/-- **One more each day.** -/
theorem dayNumber_next (d : Date) : d.next.dayNumber = d.dayNumber + 1 := by
  rcases Nat.lt_or_ge d.day (daysInMonth d.year d.month) with hday | hday
  · rw [Date.next_day hday]
    unfold Date.dayNumber
    push_cast
    ring
  · have hlast : d.day = daysInMonth d.year d.month := le_antisymm d.day_le hday
    rcases Nat.lt_or_ge d.month 12 with hmonth | hmonth
    · rw [Date.next_month hlast hmonth]
      unfold Date.dayNumber firstOf
      rw [daysBeforeMonth_succ d.year d.month_pos, hlast]
      push_cast
      ring
    · have hdec : d.month = 12 := le_antisymm d.month_le hmonth
      have hyear := daysBeforeMonth_end d.year
      rw [Date.next_year hlast hdec]
      unfold Date.dayNumber newYear firstOf
      rw [leapsBefore_succ, hlast, hdec]
      have hjan : daysBeforeMonth (d.year + 1) 1 = 0 := rfl
      rw [hjan]
      dsimp only
      split at hyear <;> rename_i hleap
      · rw [if_pos hleap]
        omega
      · rw [if_neg hleap]
        omega

/-- **Nothing else counts the days.** -/
theorem dayNumber_unique {f : Date → Int} (hepoch : f epochDate = 0)
    (hnext : ∀ d, f d.next = f d + 1) (d : Date) : f d = d.dayNumber := by
  refine Date.induction (P := fun d => f d = d.dayNumber) ?_ (fun d => ?_) d
  · rw [hepoch, dayNumber_epoch]
  · rw [hnext, dayNumber_next, add_left_inj]

end AcornOS.Lib
