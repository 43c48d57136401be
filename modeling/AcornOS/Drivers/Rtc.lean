/-
# The clock (`drivers/rtc/rtc.c`)

The date and the time from the registers of the CMOS clock, and the seconds since 1970 from these.

* **`daysFromCivil_dayNumber`**: the closed formula, in which the month wraps below 0, the era is
  rounded down by hand and the sum is of signed and unsigned words, COUNTS DAYS.  It is `Date.dayNumber`
  on every date of a year up to `2 ^ 40`, so 0 on 1 January 1970 and one more each day.
* The registers hold a date and a time in one of four encodings (`Shows`).  The reading loop comes to an
  end when they hold still (`rtcRead_stable`).
* **`rtcNowEpoch_exact_iff`**: what is returned is the time shown, unless the clock has 12 hours and
  stands at 12: midnight is taken for noon, and noon for midnight.
-/
import AcornOS.Lib.Calendar

namespace AcornOS

open Lib

/-! ## 1. The days since 1970 -/

/-- `era`: the quotient by 400, rounded down. -/
def eraOf (year : BitVec 64) : BitVec 64 :=
  (if (0 : BitVec 64).sle year then year else year - 399).sdiv 400

/-- `day_of_year`, from 1 March on. -/
def dayOfYear (month day : BitVec 32) : BitVec 32 :=
  (153 * (month + (if month > 2 then -3 else 9)) + 2) / 5 + day - 1

/-- `day_of_era` -/
def dayOfEra (yearOfEra dayOfYear : BitVec 32) : BitVec 32 :=
  yearOfEra * 365 + yearOfEra / 4 - yearOfEra / 100 + dayOfYear

/-- `days_from_civil` -/
def daysFromCivil (year : BitVec 64) (month day : BitVec 32) : BitVec 64 :=
  let year := year - (if month ≤ 2 then 1 else 0)
  let era := eraOf year
  let yearOfEra := (year - era * 400).setWidth 32
  era * 146097 + (dayOfEra yearOfEra (dayOfYear month day)).setWidth 64 - 719468

/-- What the code returns for a date, as a number. -/
def civilDays (d : Date) : Int :=
  (daysFromCivil (BitVec.ofInt 64 d.year) (BitVec.ofNat 32 d.month) (BitVec.ofNat 32 d.day)).toInt

section Civil

variable {year : Int} {month day : Nat}

/-- The year in which the March before lies. -/
def marchYear (year : Int) (month : Nat) : Int := if month ≤ 2 then year - 1 else year

/-- The days from 1 March to the first of a month. -/
def marchDays (month : Nat) : Nat := (153 * ((month + 9) % 12) + 2) / 5

theorem toInt_ofInt_word {n : Int} (hlow : -2 ^ 63 ≤ n) (hhigh : n < 2 ^ 63) :
    (BitVec.ofInt 64 n).toInt = n :=
  BitVec.toInt_ofInt_eq_self (by decide) hlow hhigh

theorem ofInt_sub (m n : Int) : BitVec.ofInt 64 (m - n) = BitVec.ofInt 64 m - BitVec.ofInt 64 n := by
  rw [Int.sub_eq_add_neg, BitVec.ofInt_add, BitVec.ofInt_neg, BitVec.sub_eq_add_neg]

/-- Division that rounds towards 0 is rounded down by what is subtracted first. -/
theorem floor_of_tdiv (year : Int) :
    (if 0 ≤ year then year else year - 399).tdiv 400 = year / 400 := by
  split
  · rename_i hpos
    exact Int.tdiv_eq_ediv_of_nonneg hpos
  · rename_i hneg
    have hswap : (year - 399).tdiv 400 = -((399 - year).tdiv 400) := by
      rw [← Int.neg_tdiv, Int.neg_sub]
    rw [hswap, Int.tdiv_eq_ediv_of_nonneg (by omega)]
    omega

theorem eraOf_ofInt (hlow : -2 ^ 41 ≤ year) (hhigh : year ≤ 2 ^ 41) :
    eraOf (BitVec.ofInt 64 year) = BitVec.ofInt 64 (year / 400) := by
  have hyear : (BitVec.ofInt 64 year).toInt = year := toInt_ofInt_word (by omega) (by omega)
  have hshift : (if (0 : BitVec 64).sle (BitVec.ofInt 64 year) then BitVec.ofInt 64 year
      else BitVec.ofInt 64 year - 399) = BitVec.ofInt 64 (if 0 ≤ year then year else year - 399) := by
    rw [BitVec.sle_eq_decide, hyear, show (0 : BitVec 64).toInt = 0 from rfl]
    by_cases hpos : 0 ≤ year
    · rw [if_pos (decide_eq_true hpos), if_pos hpos]
    · rw [if_neg (by rwa [decide_eq_true_eq]), if_neg hpos, ofInt_sub]
      rfl
  have hdividend : (BitVec.ofInt 64 (if 0 ≤ year then year else year - 399)).toInt =
      if 0 ≤ year then year else year - 399 := by
    split
    · exact hyear
    · exact toInt_ofInt_word (by omega) (by omega)
  apply BitVec.eq_of_toInt_eq
  rw [eraOf, hshift, BitVec.toInt_sdiv, hdividend, show (400 : BitVec 64).toInt = 400 from rfl,
    floor_of_tdiv, toInt_ofInt_word (by omega) (by omega)]
  exact Int.bmod_eq_of_le_mul_two (by omega) (by omega)

/-- The month wraps, and comes back. -/
theorem toNat_dayOfYear (hmonth : 1 ≤ month ∧ month ≤ 12) (hday : 1 ≤ day ∧ day ≤ 31) :
    (dayOfYear (BitVec.ofNat 32 month) (BitVec.ofNat 32 day)).toNat = marchDays month + (day - 1) := by
  have hall : ∀ m < 13, ∀ k < 32, 1 ≤ m → 1 ≤ k →
      (dayOfYear (BitVec.ofNat 32 m) (BitVec.ofNat 32 k)).toNat = marchDays m + (k - 1) := by
    decide +kernel
  exact hall month (by omega) day (by omega) hmonth.1 hday.1

theorem toNat_dayOfEra {yearOfEra dayOfYear : BitVec 32} (hyear : yearOfEra.toNat < 400)
    (hday : dayOfYear.toNat < 366) : (dayOfEra yearOfEra dayOfYear).toNat =
      yearOfEra.toNat * 365 + yearOfEra.toNat / 4 - yearOfEra.toNat / 100 + dayOfYear.toNat := by
  simp only [dayOfEra, BitVec.toNat_add, BitVec.toNat_sub, BitVec.toNat_mul, BitVec.toNat_udiv,
    BitVec.ofNat_eq_ofNat, BitVec.toNat_ofNat, Nat.reducePow, Nat.reduceMod]
  omega

/-- Months counted from March are as long as they are in any year. -/
theorem daysBeforeMonth_march (year : Int) (hmonth : 1 ≤ month ∧ month ≤ 12) :
    (daysBeforeMonth year month : Int) =
      if month ≤ 2 then (marchDays month : Int) - 306
      else marchDays month + 59 + if IsLeap year then 1 else 0 := by
  obtain ⟨hpos, hle⟩ := hmonth
  by_cases hleap : IsLeap year <;> interval_cases month <;>
    simp [daysBeforeMonth, marchDays, List.range_succ, daysInMonth, hleap]

/-- **The formula**, in numbers. -/
theorem formula_dayNumber (d : Date) :
    marchYear d.year d.month / 400 * 146097 + (marchYear d.year d.month % 400 * 365 +
      marchYear d.year d.month % 400 / 4 - marchYear d.year d.month % 400 / 100 +
      (marchDays d.month + (d.day - 1))) - 719468 = d.dayNumber := by
  have hmarch := daysBeforeMonth_march d.year ⟨d.month_pos, d.month_le⟩
  have hleap := leapsBefore_succ d.year
  rw [leapsBefore, leapsBefore, Int.add_sub_cancel] at hleap
  have hstart : leapsBefore 1970 = 477 := rfl
  rw [Date.dayNumber, hmarch, hstart, leapsBefore, marchYear]
  split
  · omega
  · omega

theorem marchDays_le (year : Int) (hmonth : 1 ≤ month ∧ month ≤ 12) :
    marchDays month + daysInMonth year month ≤ 366 := by
  obtain ⟨hpos, hle⟩ := hmonth
  by_cases hleap : IsLeap year <;> interval_cases month <;> simp [marchDays, daysInMonth, hleap]

/-- January and February belong to the year before. -/
theorem ofInt_marchYear (year : Int) (hmonth : 1 ≤ month ∧ month ≤ 12) :
    BitVec.ofInt 64 year - (if BitVec.ofNat 32 month ≤ 2 then 1 else 0) =
      BitVec.ofInt 64 (marchYear year month) := by
  have hle : BitVec.ofNat 32 month ≤ 2 ↔ month ≤ 2 := by
    rw [BitVec.le_def, BitVec.toNat_ofNat, Nat.mod_eq_of_lt (by omega)]
    rfl
  by_cases hjan : month ≤ 2
  · rw [if_pos (hle.mpr hjan), marchYear, if_pos hjan, ofInt_sub]
    rfl
  · rw [if_neg (fun h => hjan (hle.mp h)), marchYear, if_neg hjan]
    exact BitVec.sub_zero _

theorem marchYear_bounds (year : Int) (month : Nat) :
    year - 1 ≤ marchYear year month ∧ marchYear year month ≤ year := by
  unfold marchYear
  split
  · exact ⟨le_rfl, Int.sub_le_self year (by decide)⟩
  · exact ⟨Int.sub_le_self year (by decide), le_rfl⟩

/-- What is left of the year is below 400, and fits the narrower type. -/
theorem yearOfEra_eq (year : Int) : ∃ r : Nat, year % 400 = r ∧ r < 400 ∧
    ((BitVec.ofInt 64 year - BitVec.ofInt 64 (year / 400) * 400).setWidth 32).toNat = r := by
  obtain ⟨r, hr⟩ := Int.eq_ofNat_of_zero_le (Int.emod_nonneg year (by decide : (400 : Int) ≠ 0))
  have hrlt := Int.emod_lt_of_pos year (by decide : (0 : Int) < 400)
  have hrest : BitVec.ofInt 64 year - BitVec.ofInt 64 (year / 400) * 400 = BitVec.ofInt 64 (r : Int) := by
    rw [show (400 : BitVec 64) = BitVec.ofInt 64 400 from rfl, ← BitVec.ofInt_mul, ← ofInt_sub]
    congr 1
    omega
  refine ⟨r, hr, by omega, ?_⟩
  rw [hrest, BitVec.ofInt_natCast, BitVec.toNat_setWidth, BitVec.toNat_ofNat]
  omega

theorem setWidth_eq_ofInt (w : BitVec 32) : w.setWidth 64 = BitVec.ofInt 64 (w.toNat : Int) := by
  rw [BitVec.ofInt_natCast]
  exact BitVec.eq_of_toNat_eq (by rw [BitVec.toNat_setWidth, BitVec.toNat_ofNat])

/-- **The code counts days.** -/
theorem civilDays_eq (d : Date) (hlow : -2 ^ 40 ≤ d.year) (hhigh : d.year ≤ 2 ^ 40 + 1) :
    civilDays d = d.dayNumber := by
  have hmonth : 1 ≤ d.month ∧ d.month ≤ 12 := ⟨d.month_pos, d.month_le⟩
  have hday : 1 ≤ d.day ∧ d.day ≤ 31 := ⟨d.day_pos, d.day_le.trans (daysInMonth_le _ _)⟩
  have hmarch := ofInt_marchYear d.year hmonth
  have hbounds := marchYear_bounds d.year d.month
  have hformula := formula_dayNumber d
  generalize marchYear d.year d.month = year at hmarch hbounds hformula
  obtain ⟨r, hr, hrlt, hyearOfEra⟩ := yearOfEra_eq year
  have hera := @eraOf_ofInt year (by omega) (by omega)
  have hdayOfYear := toNat_dayOfYear hmonth hday
  have hlen := marchDays_le d.year hmonth
  have hlast := d.day_le
  have hdayOfEra := toNat_dayOfEra (by rw [hyearOfEra]; exact hrlt) (by rw [hdayOfYear]; omega)
  rw [hyearOfEra, hdayOfYear] at hdayOfEra
  rw [civilDays, daysFromCivil]
  simp only [hmarch, hera, setWidth_eq_ofInt, hdayOfEra]
  rw [show (146097 : BitVec 64) = BitVec.ofInt 64 146097 from rfl, ← BitVec.ofInt_mul,
    ← BitVec.ofInt_add, show (719468 : BitVec 64) = BitVec.ofInt 64 719468 from rfl, ← ofInt_sub]
  rw [hr] at hformula
  rw [toInt_ofInt_word (by omega) (by omega), ← hformula]
  omega

/-- **0 on 1 January 1970, and one more each day**, in every year from `-2 ^ 40` to `2 ^ 40`. -/
theorem daysFromCivil_dayNumber (d : Date) (hyear : |d.year| ≤ 2 ^ 40) :
    civilDays epochDate = 0 ∧ civilDays d = d.dayNumber ∧ civilDays d.next = civilDays d + 1 := by
  obtain ⟨hlow, hhigh⟩ := abs_le.mp hyear
  have hnext := d.year_next_le
  have hprev := d.le_year_next
  rw [civilDays_eq d hlow (by omega), civilDays_eq d.next (by omega) (by omega),
    civilDays_eq epochDate (by decide) (by decide), dayNumber_next, dayNumber_epoch]
  exact ⟨rfl, rfl, rfl⟩

/-- The last day of February in the year 2000, and the day after. -/
theorem daysFromCivil_dayNumber_leap_day : ∃ d : Date, d.year = 2000 ∧ d.month = 2 ∧ d.day = 29 ∧
    civilDays d = 11016 ∧ civilDays d.next = 11017 := by
  let d : Date := ⟨2000, 2, 29, by decide, by decide, by decide, by decide⟩
  obtain ⟨-, hd, hnext⟩ := daysFromCivil_dayNumber d (by decide)
  have hcount : d.dayNumber = 11016 := by decide
  rw [hcount] at hd
  rw [hd] at hnext
  exact ⟨d, rfl, rfl, rfl, hd, hnext⟩

end Civil

/-! ## 2. Reading the clock -/

/-- The registers: what each holds at each instant it may be read. -/
abbrev Cmos := Nat → BitVec 8 → BitVec 8

/-- The registers that `cmos_read_raw` reads, and `rtc_time_t` but for its year. -/
structure CmosTime where
  second : BitVec 8
  minute : BitVec 8
  hour : BitVec 8
  day : BitVec 8
  month : BitVec 8
  year : BitVec 8
deriving Repr, DecidableEq

/-- `rtc_time_t` -/
structure RtcTime where
  year : BitVec 32
  month : BitVec 8
  day : BitVec 8
  hour : BitVec 8
  minute : BitVec 8
  second : BitVec 8
deriving Repr, DecidableEq

/-- `while(cmos_update_in_progress()) {}`, from an instant to the one after. -/
def waitUpdate (cmos : Cmos) : (fuel : Nat) → Nat → Option Nat
  | 0, _ => none
  | fuel + 1, t => if cmos t 0x0A &&& 0x80 ≠ 0 then waitUpdate cmos fuel (t + 1) else some (t + 1)

/-- `cmos_read_raw` -/
def cmosReadRaw (cmos : Cmos) (t : Nat) : CmosTime :=
  ⟨cmos t 0x00, cmos (t + 1) 0x02, cmos (t + 2) 0x04, cmos (t + 3) 0x07, cmos (t + 4) 0x08,
    cmos (t + 5) 0x09⟩

/-- The loop of `rtc_read`: what two readings agree on, and the instant after. -/
def rtcReadLoop (cmos : Cmos) : (fuel : Nat) → Nat → Option (CmosTime × Nat)
  | 0, _ => none
  | fuel + 1, t => do
    let t ← waitUpdate cmos (fuel + 1) t
    let raw := cmosReadRaw cmos t
    let t ← waitUpdate cmos (fuel + 1) (t + 6)
    let last := cmosReadRaw cmos t
    if raw ≠ last then rtcReadLoop cmos fuel (t + 6) else some (raw, t + 6)

/-- Two decimal digits in one byte. -/
def ofBcd (x : BitVec 8) : BitVec 8 := (x &&& 0x0F) + (x / 16) * 10

/-- The hours from BCD, with the PM flag where it was. -/
def hourOfBcd (hour : BitVec 8) : BitVec 8 :=
  let pmFlag := hour &&& 0x80
  ((hour &&& 0x0F) + ((hour &&& 0x70) / 16) * 10) ||| pmFlag

/-- The hours of 24, by the 12 and the PM flag if status register B says so. -/
def hourOf24 (statusB hour : BitVec 8) : BitVec 8 :=
  if statusB &&& 0x02 = 0 ∧ hour &&& 0x80 ≠ 0 then ((hour &&& 0x7F) + 12) % 24 else hour &&& 0x7F

/-- `rtc_read` once the registers are read. -/
def rtcDecode (statusB : BitVec 8) (raw : CmosTime) : RtcTime :=
  let raw := if statusB &&& 0x04 = 0 then
      ⟨ofBcd raw.second, ofBcd raw.minute, hourOfBcd raw.hour, ofBcd raw.day, ofBcd raw.month,
        ofBcd raw.year⟩
    else raw
  ⟨2000 + raw.year.setWidth 32, raw.month, raw.day, hourOf24 statusB raw.hour, raw.minute, raw.second⟩

/-- `rtc_read` -/
def rtcRead (cmos : Cmos) (fuel : Nat) (t : Nat) : Option RtcTime := do
  let (raw, t) ← rtcReadLoop cmos fuel t
  some (rtcDecode (cmos t 0x0B) raw)

/-- The seconds since 1970 of a time. -/
def epochOf (r : RtcTime) : BitVec 64 :=
  let days := daysFromCivil (r.year.setWidth 64) (r.month.setWidth 32) (r.day.setWidth 32)
  days * 86400 + r.hour.setWidth 64 * 3600 + r.minute.setWidth 64 * 60 + r.second.setWidth 64

/-- `rtc_now_epoch` -/
def rtcNowEpoch (cmos : Cmos) (fuel : Nat) (t : Nat) : Option (BitVec 64) :=
  (rtcRead cmos fuel t).map epochOf

/-! ## 3. What the registers show -/

/-- A date and a time of day. -/
structure Instant where
  date : Date
  hour : Nat
  minute : Nat
  second : Nat
  hour_lt : hour < 24
  minute_lt : minute < 60
  second_lt : second < 60

/-- Unix time: the seconds since 1 January 1970. -/
def Instant.unixTime (i : Instant) : Int :=
  i.date.dayNumber * 86400 + i.hour * 3600 + i.minute * 60 + i.second

/-- How a clock writes numbers, and whether it counts the hours up to 24. -/
structure Encoding where
  binary : Bool
  hour24 : Bool
deriving Repr, DecidableEq

/-- A number in a register. -/
def Encoding.number (e : Encoding) (n : Nat) : BitVec 8 :=
  BitVec.ofNat 8 (if e.binary then n else n / 10 * 16 + n % 10)

/-- An hour on a clock with 12 of them. -/
def twelveHour (hour : Nat) : Nat := if hour % 12 = 0 then 12 else hour % 12

/-- The hours in their register: with 12 of them, bit 7 is for the second half of the day. -/
def Encoding.hours (e : Encoding) (hour : Nat) : BitVec 8 :=
  if e.hour24 then e.number hour
  else e.number (twelveHour hour) ||| if 12 ≤ hour then 0x80 else 0

/-- The registers that show an instant of this century. -/
def Encoding.registers (e : Encoding) (i : Instant) : CmosTime :=
  ⟨e.number i.second, e.number i.minute, e.hours i.hour, e.number i.date.day, e.number i.date.month,
    e.number (i.date.year - 2000).toNat⟩

/-- Bits 2 and 1 of status register B name the encoding. -/
def Encoding.Named (e : Encoding) (statusB : BitVec 8) : Prop :=
  (statusB &&& 0x04 ≠ 0 ↔ e.binary = true) ∧ (statusB &&& 0x02 ≠ 0 ↔ e.hour24 = true)

/-- The registers hold still and show an instant; now and again no update is in progress. -/
structure Shows (cmos : Cmos) (e : Encoding) (i : Instant) : Prop where
  raw : ∀ t, cmosReadRaw cmos t = e.registers i
  statusB : ∀ t, e.Named (cmos t 0x0B)
  idle : ∀ t, ∃ u, t ≤ u ∧ cmos u 0x0A &&& 0x80 = 0

section Reading

variable {cmos : Cmos} {e : Encoding} {i : Instant}

/-- A wait ends, with fuel enough. -/
theorem waitUpdate_idle {t u : Nat} (htu : t ≤ u) (hidle : cmos u 0x0A &&& 0x80 = 0) :
    ∃ v, ∀ fuel > u - t, waitUpdate cmos fuel t = some v := by
  induction htu using Nat.decreasingInduction with
  | self =>
    refine ⟨u + 1, fun fuel hfuel => ?_⟩
    obtain ⟨n, rfl⟩ := Nat.exists_eq_add_of_lt hfuel
    rw [waitUpdate, if_neg (not_not_intro hidle)]
  | of_succ t htu ih =>
    by_cases hbusy : cmos t 0x0A &&& 0x80 = 0
    · refine ⟨t + 1, fun fuel hfuel => ?_⟩
      obtain ⟨n, rfl⟩ := Nat.exists_eq_add_of_lt hfuel
      rw [waitUpdate, if_neg (not_not_intro hbusy)]
    · obtain ⟨v, hv⟩ := ih
      refine ⟨v, fun fuel hfuel => ?_⟩
      obtain ⟨n, rfl⟩ := Nat.exists_eq_add_of_lt hfuel
      rw [waitUpdate, if_pos hbusy]
      exact hv _ (by omega)

/-- **The two readings agree**, so one round is enough. -/
theorem rtcRead_stable (h : Shows cmos e i) (t : Nat) : ∃ statusB, e.Named statusB ∧
    ∃ enough, ∀ fuel ≥ enough, rtcRead cmos fuel t = some (rtcDecode statusB (e.registers i)) := by
  obtain ⟨u, hu, hidle⟩ := h.idle t
  obtain ⟨v, hv⟩ := waitUpdate_idle hu hidle
  obtain ⟨u', hu', hidle'⟩ := h.idle (v + 6)
  obtain ⟨v', hv'⟩ := waitUpdate_idle hu' hidle'
  refine ⟨cmos (v' + 6) 0x0B, h.statusB _, u - t + (u' - (v + 6)) + 1, fun fuel hfuel => ?_⟩
  obtain ⟨n, rfl⟩ := Nat.exists_eq_add_of_le' (Nat.le_of_lt_succ (Nat.lt_succ_of_le
    ((Nat.le_add_left 1 _).trans hfuel)))
  have hloop : rtcReadLoop cmos (n + 1) t = some (e.registers i, v' + 6) := by
    rw [rtcReadLoop, hv (n + 1) (by omega)]
    change (waitUpdate cmos (n + 1) (v + 6) >>= _) = _
    rw [hv' (n + 1) (by omega)]
    change (if cmosReadRaw cmos v ≠ cmosReadRaw cmos v' then _ else _) = _
    rw [h.raw, h.raw, if_neg (not_not_intro rfl)]
  rw [rtcRead, hloop]
  rfl

/-! ## 4. Decoding -/

/-- The hour that is read: on a clock with 12 hours, midnight and noon change places. -/
def Encoding.readHour (e : Encoding) (hour : Nat) : Nat :=
  if e.hour24 = false ∧ hour % 12 = 0 then 12 - hour else hour

theorem ofBcd_number : ∀ n < 100, ofBcd (BitVec.ofNat 8 (n / 10 * 16 + n % 10)) = BitVec.ofNat 8 n := by
  decide +kernel

/-- The PM flag survives the conversion from BCD. -/
theorem hourOfBcd_hours : ∀ hour < 24, ∀ hour24 : Bool,
    hourOfBcd (Encoding.hours ⟨false, hour24⟩ hour) = Encoding.hours ⟨true, hour24⟩ hour := by
  decide +kernel

/-- **12 is not set to 0** before the 12 hours of the afternoon are added, and not at all in the
morning. -/
theorem hourOf24_hours {statusB : BitVec 8} (hnamed : e.Named statusB) {hour : Nat} (hlt : hour < 24) :
    hourOf24 statusB (Encoding.hours ⟨true, e.hour24⟩ hour) = BitVec.ofNat 8 (e.readHour hour) := by
  have h24 : ∀ h < 24, Encoding.hours ⟨true, true⟩ h &&& 0x7F = BitVec.ofNat 8 h := by decide +kernel
  have h12 : ∀ h < 24, (if Encoding.hours ⟨true, false⟩ h &&& 0x80 ≠ 0 then
      ((Encoding.hours ⟨true, false⟩ h &&& 0x7F) + 12) % 24 else Encoding.hours ⟨true, false⟩ h &&& 0x7F) =
      BitVec.ofNat 8 (if h % 12 = 0 then 12 - h else h) := by decide +kernel
  unfold hourOf24 Encoding.readHour
  cases hmode : e.hour24 with
  | true =>
    have hset : statusB &&& 0x02 ≠ 0 := hnamed.2.mpr hmode
    rw [if_neg fun h => hset h.1, if_neg fun h => Bool.noConfusion h.1]
    exact h24 hour hlt
  | false =>
    have hclear : statusB &&& 0x02 = 0 := by
      by_contra hset
      rw [hnamed.2.mp hset] at hmode
      cases hmode
    simp only [hclear, true_and]
    exact h12 hour hlt

/-- The century is added to the year of two digits. -/
theorem century_eq {year : Int} (hyear : 2000 ≤ year ∧ year ≤ 2099) :
    2000 + (BitVec.ofNat 8 (year - 2000).toNat).setWidth 32 = BitVec.ofInt 32 year := by
  obtain ⟨n, hn⟩ := Int.eq_ofNat_of_zero_le (Int.sub_nonneg_of_le hyear.1)
  have hsum : year = ((2000 + n : Nat) : Int) := by omega
  rw [hn, Int.toNat_natCast, hsum, BitVec.ofInt_natCast]
  apply BitVec.eq_of_toNat_eq
  rw [BitVec.toNat_add, BitVec.toNat_setWidth, BitVec.toNat_ofNat, BitVec.toNat_ofNat,
    show (2000 : BitVec 32).toNat = 2000 from rfl]
  omega

/-- **What `rtc_read` makes of the registers**: all is right but the hour. -/
theorem rtcDecode_registers {statusB : BitVec 8} (hnamed : e.Named statusB)
    (hyear : 2000 ≤ i.date.year ∧ i.date.year ≤ 2099) : rtcDecode statusB (e.registers i) =
      ⟨BitVec.ofInt 32 i.date.year, BitVec.ofNat 8 i.date.month, BitVec.ofNat 8 i.date.day,
        BitVec.ofNat 8 (e.readHour i.hour), BitVec.ofNat 8 i.minute, BitVec.ofNat 8 i.second⟩ := by
  have hmonth := i.date.month_le
  have hday := i.date.day_le.trans (daysInMonth_le _ _)
  have hminute := i.minute_lt
  have hsecond := i.second_lt
  have hcentury := century_eq hyear
  have hyear' : (i.date.year - 2000).toNat < 100 := by omega
  have hhour := hourOf24_hours hnamed i.hour_lt
  unfold rtcDecode
  cases hmode : e.binary with
  | true =>
    have hset : statusB &&& 0x04 ≠ 0 := hnamed.1.mpr hmode
    have he : e = ⟨true, e.hour24⟩ := by rw [← hmode]
    have hnumber : ∀ n, e.number n = BitVec.ofNat 8 n := fun n => by rw [he]; rfl
    have hhours : e.hours i.hour = Encoding.hours ⟨true, e.hour24⟩ i.hour := congrArg (·.hours i.hour) he
    simp only [if_neg hset, Encoding.registers, hnumber, hhours, hcentury, hhour]
  | false =>
    have hclear : statusB &&& 0x04 = 0 := by
      by_contra hset
      rw [hnamed.1.mp hset] at hmode
      cases hmode
    have he : e = ⟨false, e.hour24⟩ := by rw [← hmode]
    have hnumber : ∀ n < 100, ofBcd (e.number n) = BitVec.ofNat 8 n := by
      intro n hn
      rw [he]
      exact ofBcd_number n hn
    have hhours : hourOfBcd (e.hours i.hour) = Encoding.hours ⟨true, e.hour24⟩ i.hour :=
      (congrArg (fun e => hourOfBcd (Encoding.hours e i.hour)) he).trans
        (hourOfBcd_hours i.hour i.hour_lt e.hour24)
    simp only [if_pos hclear, Encoding.registers, hhours, hnumber i.second (by omega),
      hnumber i.minute (by omega), hnumber i.date.day (by omega), hnumber i.date.month (by omega),
      hnumber _ hyear', hcentury, hhour]

/-! ## 5. The time since 1970 -/

/-- A number in a byte or a word, widened. -/
theorem setWidth_ofNat {v w n : Nat} (hn : n < 2 ^ v) :
    (BitVec.ofNat v n).setWidth w = BitVec.ofNat w n := by
  apply BitVec.eq_of_toNat_eq
  rw [BitVec.toNat_setWidth, BitVec.toNat_ofNat, BitVec.toNat_ofNat, Nat.mod_eq_of_lt hn]

theorem dayNumber_century {d : Date} (hyear : 2000 ≤ d.year ∧ d.year ≤ 2099) :
    0 ≤ d.dayNumber ∧ d.dayNumber < 10 ^ 6 := by
  have hmarch := daysBeforeMonth_march d.year ⟨d.month_pos, d.month_le⟩
  have hlen := marchDays_le d.year ⟨d.month_pos, d.month_le⟩
  have hday := d.day_le.trans (daysInMonth_le _ _)
  have hstart : leapsBefore 1970 = 477 := rfl
  rw [Date.dayNumber, hstart, leapsBefore]
  split_ifs at hmarch <;> omega

/-- **The seconds**, of the date and of the time of day that has been read. -/
theorem toNat_epochOf {d : Date} (hyear : 2000 ≤ d.year ∧ d.year ≤ 2099) {hour minute second : Nat}
    (hhour : hour < 24) (hminute : minute < 60) (hsecond : second < 60) :
    ((epochOf ⟨BitVec.ofInt 32 d.year, BitVec.ofNat 8 d.month, BitVec.ofNat 8 d.day, BitVec.ofNat 8 hour,
      BitVec.ofNat 8 minute, BitVec.ofNat 8 second⟩).toNat : Int) =
        d.dayNumber * 86400 + hour * 3600 + minute * 60 + second := by
  have hmonth := d.month_le
  have hday := d.day_le.trans (daysInMonth_le _ _)
  obtain ⟨hnonneg, hsmall⟩ := dayNumber_century hyear
  have hwide : (BitVec.ofInt 32 d.year).setWidth 64 = BitVec.ofInt 64 d.year := by
    obtain ⟨n, hn⟩ := Int.eq_ofNat_of_zero_le (show 0 ≤ d.year by omega)
    rw [hn, BitVec.ofInt_natCast, BitVec.ofInt_natCast, setWidth_ofNat (by omega)]
  have hdays : daysFromCivil (BitVec.ofInt 64 d.year) (BitVec.ofNat 32 d.month) (BitVec.ofNat 32 d.day) =
      BitVec.ofInt 64 d.dayNumber := by
    rw [← civilDays_eq d (by omega) (by omega), civilDays, BitVec.ofInt_toInt]
  have hsum : epochOf ⟨BitVec.ofInt 32 d.year, BitVec.ofNat 8 d.month, BitVec.ofNat 8 d.day,
      BitVec.ofNat 8 hour, BitVec.ofNat 8 minute, BitVec.ofNat 8 second⟩ =
        BitVec.ofInt 64 (d.dayNumber * 86400 + hour * 3600 + minute * 60 + second) := by
    simp only [epochOf, hwide, setWidth_ofNat (v := 8) (w := 32) (n := d.month) (by omega),
      setWidth_ofNat (v := 8) (w := 32) (n := d.day) (by omega), hdays,
      setWidth_ofNat (v := 8) (w := 64) (n := hour) (by omega),
      setWidth_ofNat (v := 8) (w := 64) (n := minute) (by omega),
      setWidth_ofNat (v := 8) (w := 64) (n := second) (by omega),
      BitVec.ofInt_add, BitVec.ofInt_mul, BitVec.ofInt_natCast]
    rfl
  rw [hsum, BitVec.toNat_ofInt]
  omega

/-- **The time is exact**, of a date of this century in any of the four encodings, just if the clock has
24 hours or does not stand at 12. -/
theorem rtcNowEpoch_exact_iff (cmos : Cmos) (e : Encoding) (i : Instant) (hshows : Shows cmos e i)
    (hyear : 2000 ≤ i.date.year ∧ i.date.year ≤ 2099) (t : Nat) :
    ∃ x : BitVec 64, (∃ enough, ∀ fuel ≥ enough, rtcNowEpoch cmos fuel t = some x) ∧
      ((x.toNat : Int) = i.unixTime ↔ e.hour24 = true ∨ i.hour % 12 ≠ 0) := by
  obtain ⟨statusB, hnamed, enough, hread⟩ := rtcRead_stable hshows t
  have hlt := i.hour_lt
  have hhour : e.readHour i.hour < 24 := by
    unfold Encoding.readHour
    split <;> omega
  refine ⟨epochOf (rtcDecode statusB (e.registers i)), ⟨enough, fun fuel hfuel => ?_⟩, ?_⟩
  · rw [rtcNowEpoch, hread fuel hfuel]
    rfl
  · rw [rtcDecode_registers hnamed hyear, toNat_epochOf hyear hhour i.minute_lt i.second_lt,
      Instant.unixTime]
    unfold Encoding.readHour
    cases e.hour24 with
    | true => exact iff_of_true rfl (.inl rfl)
    | false =>
      simp only [true_and, Bool.false_eq_true, false_or]
      split <;> omega

/-- Registers that hold what they hold. -/
def frozenCmos (statusB : BitVec 8) (raw : CmosTime) : Cmos := fun _ reg =>
  if reg = 0x00 then raw.second else if reg = 0x02 then raw.minute else if reg = 0x04 then raw.hour
  else if reg = 0x07 then raw.day else if reg = 0x08 then raw.month else if reg = 0x09 then raw.year
  else if reg = 0x0B then statusB else 0

theorem frozenCmos_shows {statusB : BitVec 8} (h : e.Named statusB) :
    Shows (frozenCmos statusB (e.registers i)) e i :=
  ⟨fun _ => rfl, fun _ => h, fun t => ⟨t, le_rfl, by
    rw [show frozenCmos statusB (e.registers i) t 0x0A = 0 from rfl]
    decide⟩⟩

/-- 1 January 2000, at this hour. -/
def millennium (hour : Nat) (h : hour < 24) : Instant := ⟨newYear 2000, hour, 0, 0, h, by decide, by decide⟩

/-- One in the afternoon, in BCD with 12 hours. -/
theorem rtcNowEpoch_exact_iff_afternoon : ∃ (x : BitVec 64) (enough : Nat), (∀ fuel ≥ enough,
    rtcNowEpoch (frozenCmos 0 ((⟨false, false⟩ : Encoding).registers (millennium 13 (by decide)))) fuel 0 =
      some x) ∧ (x.toNat : Int) = (millennium 13 (by decide)).unixTime := by
  obtain ⟨x, ⟨enough, hx⟩, hexact⟩ := rtcNowEpoch_exact_iff _ ⟨false, false⟩ (millennium 13 (by decide))
    (frozenCmos_shows (show Encoding.Named ⟨false, false⟩ 0 from ⟨by decide, by decide⟩))
    ⟨by decide, by decide⟩ 0
  exact ⟨x, enough, hx, hexact.mpr (.inr (by decide))⟩

/-- **Midnight is read as noon**: the registers show 12 AM, and 12 hours too many are returned. -/
theorem midnight_read_as_noon :
    rtcNowEpoch (frozenCmos 0 ((⟨false, false⟩ : Encoding).registers (millennium 0 (by decide)))) 1 0 =
      some 946728000 ∧ (millennium 0 (by decide)).unixTime = 946684800 := by decide +kernel

end Reading

end AcornOS
