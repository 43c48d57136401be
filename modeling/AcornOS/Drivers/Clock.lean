/-
# Times as text (`drivers/rtc/rtc.c`, `drivers/timer/timer.c`)

`kprintf` has no leading zeros, so two drivers write their digits by hand: `dev_rtc_read` a date of fixed
width, and `update_clock` the uptime in the corner of the screen.

* `stamp` is the text of a date and a time of day, and **no two times of this century have the same one**
  (`stamp_inj`): every field has its width and its place.
* **`rtc_text_exact_iff`**: what is read from the device, in pieces of any size, is the text of ONE time, and
  that is the time the clock shows, except that a clock with 12 hours makes noon of midnight.
* **`clock_shows_uptime_iff`**: with each second the corner of the screen is given the uptime, whatever stood
  there, and nothing else changes.  There are two digits for the hours: that is right for 100 hours.
-/
import AcornOS.Core.Kprintf
import AcornOS.Drivers.Rtc
import AcornOS.Drivers.Vga

namespace AcornOS

open Lib

/-! ## 1. The code -/

/-- `'-'` and `':'` -/
def hyphenChar : BitVec 8 := 0x2D
def colonChar : BitVec 8 := 0x3A

/-- `write_2digit` -/
def write2Digit (value : BitVec 8) : CString := [0x30 + value / 10, 0x30 + value % 10]

/-- `write_4digit` -/
def write4Digit (value : BitVec 32) : CString :=
  [0x30 + value / 1000 % 10, 0x30 + value / 100 % 10, 0x30 + value / 10 % 10, 0x30 + value % 10].map
    (BitVec.setWidth 8)

/-- `formatted` in `dev_rtc_read`. -/
def rtcText (r : RtcTime) : CString :=
  write4Digit r.year ++ hyphenChar :: (write2Digit r.month ++ hyphenChar :: (write2Digit r.day ++
    0x20 :: (write2Digit r.hour ++ colonChar :: (write2Digit r.minute ++
      colonChar :: (write2Digit r.second ++ [0x0A])))))

/-- `dev_rtc_read`: what it puts into the buffer. -/
def devRtcRead (cmos : Cmos) (fuel t size : Nat) : Option CString :=
  (rtcRead cmos fuel t).map fun r => (rtcText r).take (min size 20)

/-- `TIMER_FREQUENCY` and the place of the clock on the screen. -/
def clockFrequency : BitVec 32 := 100
def clockColumn : Nat := 69
def clockWidth : Nat := 11
def clockColour : BitVec 8 := 0x0A

/-- `buf` in `update_clock`. -/
def clockBuf (ticks : BitVec 32) : CString :=
  let seconds := ticks / clockFrequency
  let minutes := seconds / 60
  let hours := minutes / 60
  let seconds := seconds % 60
  let minutes := minutes % 60
  let digit (d : BitVec 32) : BitVec 8 := (0x30 + d).setWidth 8
  [0x55, 0x50, 0x20, digit (hours / 10), digit (hours % 10), colonChar, digit (minutes / 10),
    digit (minutes % 10), colonChar, digit (seconds / 10), digit (seconds % 10)]

/-- `update_clock` -/
def updateClock (ticks : BitVec 32) (v : Vga) : Vga :=
  loop (fun i v => v.store (clockColumn + i) (makeEntry ((clockBuf ticks).getD i 0) clockColour)) clockWidth v

/-- `timer_handler`: the counter and the screen after it. -/
def timerHandler (ticks : BitVec 32) (v : Vga) : BitVec 32 × Vga :=
  let ticks := ticks + 1
  (ticks, if ticks % clockFrequency = 0 then updateClock ticks v else v)

/-- The timer has interrupted `n` times, and others have put things on the screen. -/
inductive TimerRun : Nat → BitVec 32 → Vga → Prop
  | start (v : Vga) : TimerRun 0 0 v
  | tick {n : Nat} {ticks : BitVec 32} {v : Vga} (h : TimerRun n ticks v) :
      TimerRun (n + 1) (timerHandler ticks v).1 (timerHandler ticks v).2
  | other {n : Nat} {ticks : BitVec 32} {v : Vga} (h : TimerRun n ticks v) (v' : Vga) : TimerRun n ticks v'

/-! ## 2. The texts -/

/-- Two digits. -/
def twoDigits (n : Nat) : CString := fixedNumeral decDigit 10 2 n

/-- The text of a date and a time of day. -/
def stamp (d : Date) (hour minute second : Nat) : CString :=
  fixedNumeral decDigit 10 4 d.year.toNat ++ hyphenChar :: (twoDigits d.month ++ hyphenChar ::
    (twoDigits d.day ++ 0x20 :: (twoDigits hour ++ colonChar :: (twoDigits minute ++
      colonChar :: (twoDigits second ++ [0x0A])))))

/-- The text of an instant. -/
def Instant.text (i : Instant) : CString := stamp i.date i.hour i.minute i.second

/-- The hours, with two digits at least. -/
def hoursText (hours : Nat) : CString :=
  if hours < 100 then twoDigits hours else numeral decDigit 10 (hours / 100) ++ twoDigits (hours % 100)

/-- The uptime of this many seconds: `UP HH:MM:SS`. -/
def uptimeText (seconds : Nat) : CString :=
  [0x55, 0x50, 0x20] ++ hoursText (seconds / 3600) ++ colonChar :: (twoDigits (seconds / 60 % 60) ++
    colonChar :: twoDigits (seconds % 60))

example : uptimeText 3661 = [0x55, 0x50, 0x20, 0x30, 0x31, 0x3A, 0x30, 0x31, 0x3A, 0x30, 0x31] := by decide

section Texts

variable {e : Encoding} {i : Instant} {d d' : Date} {hour hour' minute minute' second second' : Nat}

theorem write2Digit_ofNat : ∀ n < 100, write2Digit (BitVec.ofNat 8 n) = twoDigits n := by decide +kernel

theorem write4Digit_century : ∀ n < 100,
    write4Digit (2000 + BitVec.ofNat 32 n) = fixedNumeral decDigit 10 4 (2000 + n) := by decide +kernel

/-- The hour that is read is an hour. -/
theorem Encoding.readHour_lt (e : Encoding) (hlt : hour < 24) : e.readHour hour < 24 := by
  unfold Encoding.readHour
  split <;> omega

@[simp] theorem length_twoDigits (n : Nat) : (twoDigits n).length = 2 := length_fixedNumeral ..

theorem decDigit_value : ∀ d < 10, (decDigit d).toNat - 0x30 = d := by decide

/-- Digits of a fixed number tell small numbers apart. -/
theorem fixedNumeral_inj {width m n : Nat} (hm : m < 10 ^ width) (hn : n < 10 ^ width)
    (h : fixedNumeral decDigit 10 width m = fixedNumeral decDigit 10 width n) : m = n := by
  have hread := congrArg (readNumeral (fun c : BitVec 8 => c.toNat - 0x30) 10) h
  rw [readNumeral_fixedNumeral _ (by decide) decDigit_value,
    readNumeral_fixedNumeral _ (by decide) decDigit_value, Nat.mod_eq_of_lt hm, Nat.mod_eq_of_lt hn] at hread
  exact hread

/-- A field of fixed width and what is behind it. -/
theorem field_inj {width m n : Nat} {x : BitVec 8} {s t : CString} (hm : m < 10 ^ width) (hn : n < 10 ^ width)
    (h : fixedNumeral decDigit 10 width m ++ x :: s = fixedNumeral decDigit 10 width n ++ x :: t) :
    m = n ∧ s = t := by
  have hlen : (fixedNumeral decDigit 10 width m).length = (fixedNumeral decDigit 10 width n).length := by
    rw [length_fixedNumeral, length_fixedNumeral]
  obtain ⟨hnumber, hrest⟩ := List.append_inj h hlen
  exact ⟨fixedNumeral_inj hm hn hnumber, (List.cons.inj hrest).2⟩

/-- **The fields can be read back.** -/
theorem stamp_inj (hyear : 0 ≤ d.year ∧ d.year ≤ 9999) (hyear' : 0 ≤ d'.year ∧ d'.year ≤ 9999)
    (htime : hour < 100 ∧ minute < 100 ∧ second < 100)
    (htime' : hour' < 100 ∧ minute' < 100 ∧ second' < 100)
    (h : stamp d hour minute second = stamp d' hour' minute' second') :
    d = d' ∧ hour = hour' ∧ minute = minute' ∧ second = second' := by
  have hmonth := d.month_le
  have hmonth' := d'.month_le
  have hday := d.day_le.trans (daysInMonth_le _ _)
  have hday' := d'.day_le.trans (daysInMonth_le _ _)
  obtain ⟨heqYear, h⟩ := field_inj (by omega) (by omega) h
  obtain ⟨heqMonth, h⟩ := field_inj (by omega) (by omega) h
  obtain ⟨heqDay, h⟩ := field_inj (by omega) (by omega) h
  obtain ⟨heqHour, h⟩ := field_inj (by omega) (by omega) h
  obtain ⟨heqMinute, h⟩ := field_inj (by omega) (by omega) h
  obtain ⟨heqSecond, -⟩ := field_inj (by omega) (by omega) h
  refine ⟨?_, heqHour, heqMinute, heqSecond⟩
  obtain ⟨year, month, day, _, _, _, _⟩ := d
  obtain ⟨year', month', day', _, _, _, _⟩ := d'
  simp only at hyear hyear' heqYear heqMonth heqDay
  have heq : year = year' := by omega
  subst heq heqMonth heqDay
  rfl

theorem length_stamp : (stamp d hour minute second).length = 20 := by
  simp [stamp, length_fixedNumeral]

/-- **What is written** is the text of the time that is read. -/
theorem rtcText_registers {statusB : BitVec 8} (hnamed : e.Named statusB)
    (hyear : 2000 ≤ i.date.year ∧ i.date.year ≤ 2099) : rtcText (rtcDecode statusB (e.registers i)) =
      stamp i.date (e.readHour i.hour) i.minute i.second := by
  have hmonth := i.date.month_le
  have hday := i.date.day_le.trans (daysInMonth_le _ _)
  have hminute := i.minute_lt
  have hsecond := i.second_lt
  have hhour := e.readHour_lt i.hour_lt
  have hwritten :
      write4Digit (BitVec.ofInt 32 i.date.year) = fixedNumeral decDigit 10 4 i.date.year.toNat := by
    obtain ⟨n, hn⟩ := Int.eq_ofNat_of_zero_le (Int.sub_nonneg_of_le hyear.1)
    have hsum : i.date.year.toNat = 2000 + n := by omega
    have hcentury := century_eq hyear
    rw [hn, Int.toNat_natCast, setWidth_ofNat (by omega)] at hcentury
    rw [← hcentury, write4Digit_century n (by omega), hsum]
  rw [rtcDecode_registers hnamed hyear]
  simp only [rtcText, stamp, hwritten, write2Digit_ofNat i.date.month (by omega),
    write2Digit_ofNat i.date.day (by omega), write2Digit_ofNat (e.readHour i.hour) (by omega),
    write2Digit_ofNat i.minute (by omega), write2Digit_ofNat i.second (by omega)]

/-- **The date is right**, of a date of this century in any of the four encodings, just if the clock has 24
hours or does not stand at 12.  Whatever is read in pieces, it names one time and no other. -/
theorem rtc_text_exact_iff (cmos : Cmos) (e : Encoding) (i : Instant) (hshows : Shows cmos e i)
    (hyear : 2000 ≤ i.date.year ∧ i.date.year ≤ 2099) (t : Nat) : ∃ text : CString, text.length = 20 ∧
      (∃ enough, ∀ fuel ≥ enough, ∀ size, devRtcRead cmos fuel t size = some (text.take size)) ∧
      (∀ j : Instant, 2000 ≤ j.date.year ∧ j.date.year ≤ 2099 → (text = j.text ↔
        j.date = i.date ∧ j.hour = e.readHour i.hour ∧ j.minute = i.minute ∧ j.second = i.second)) ∧
      (text = i.text ↔ e.hour24 = true ∨ i.hour % 12 ≠ 0) := by
  obtain ⟨statusB, hnamed, enough, hread⟩ := rtcRead_stable hshows t
  have hlt := i.hour_lt
  have hminute := i.minute_lt
  have hsecond := i.second_lt
  have hhour := e.readHour_lt hlt
  have hnames : ∀ j : Instant, 2000 ≤ j.date.year ∧ j.date.year ≤ 2099 →
      (stamp i.date (e.readHour i.hour) i.minute i.second = j.text ↔
        j.date = i.date ∧ j.hour = e.readHour i.hour ∧ j.minute = i.minute ∧ j.second = i.second) := by
    intro j hj
    have hjhour := j.hour_lt
    have hjminute := j.minute_lt
    have hjsecond := j.second_lt
    constructor
    · intro h
      obtain ⟨hd, hh, hm, hs⟩ := stamp_inj (by omega) (by omega) (by omega) (by omega) h
      exact ⟨hd.symm, hh.symm, hm.symm, hs.symm⟩
    · rintro ⟨hd, hh, hm, hs⟩
      rw [Instant.text, hd, hh, hm, hs]
  refine ⟨_, length_stamp, ⟨enough, fun fuel hfuel size => ?_⟩, hnames, ?_⟩
  · have htake : ∀ text : CString, text.length = 20 → text.take (min size 20) = text.take size := by
      intro text hlen
      rw [← hlen]
      exact List.take_eq_take_min.symm
    rw [devRtcRead, hread fuel hfuel, Option.map_some, rtcText_registers hnamed hyear, htake _ length_stamp]
  · rw [hnames i hyear]
    unfold Encoding.readHour
    cases e.hour24 with
    | true => simp
    | false =>
      simp only [true_and, and_true, Bool.false_eq_true, false_or]
      split <;> omega

/-- One in the afternoon, in BCD with 12 hours: the first ten characters are the date. -/
theorem rtc_text_exact_iff_afternoon : ∃ (text : CString) (enough : Nat), (∀ fuel ≥ enough,
    devRtcRead (frozenCmos 0 ((⟨false, false⟩ : Encoding).registers (millennium 13 (by decide)))) fuel 0 10 =
      some (text.take 10)) ∧ text = (millennium 13 (by decide)).text := by
  obtain ⟨text, -, ⟨enough, hread⟩, -, hexact⟩ := rtc_text_exact_iff _ ⟨false, false⟩
    (millennium 13 (by decide)) (frozenCmos_shows (show Encoding.Named ⟨false, false⟩ 0 from ⟨by decide, by decide⟩))
    ⟨by decide, by decide⟩ 0
  exact ⟨text, enough, fun fuel hfuel => hread fuel hfuel 10, hexact.mpr (.inr (by decide))⟩

end Texts

/-! ## 3. The clock in the corner -/

section Uptime

variable {n : Nat} {ticks : BitVec 32} {v w : Vga}

theorem ofNat_div {m k : Nat} (hm : m < 2 ^ 32) (hk : k < 2 ^ 32) :
    BitVec.ofNat 32 m / BitVec.ofNat 32 k = BitVec.ofNat 32 (m / k) := by
  apply BitVec.eq_of_toNat_eq
  rw [BitVec.toNat_udiv, BitVec.toNat_ofNat, BitVec.toNat_ofNat, BitVec.toNat_ofNat, Nat.mod_eq_of_lt hm,
    Nat.mod_eq_of_lt hk, Nat.mod_eq_of_lt ((Nat.div_le_self m k).trans_lt hm)]

theorem ofNat_mod {m k : Nat} (hm : m < 2 ^ 32) (hk : k < 2 ^ 32) :
    BitVec.ofNat 32 m % BitVec.ofNat 32 k = BitVec.ofNat 32 (m % k) := by
  apply BitVec.eq_of_toNat_eq
  rw [BitVec.toNat_umod, BitVec.toNat_ofNat, BitVec.toNat_ofNat, BitVec.toNat_ofNat, Nat.mod_eq_of_lt hm,
    Nat.mod_eq_of_lt hk, Nat.mod_eq_of_lt ((Nat.mod_le m k).trans_lt hm)]

/-- A digit of the clock. -/
theorem clockDigit_eq : ∀ d < 10, (0x30 + BitVec.ofNat 32 d : BitVec 32).setWidth 8 = decDigit d := by
  decide

theorem twoDigits_eq (hn : n < 100) : twoDigits n = [decDigit (n / 10), decDigit (n % 10)] := by
  have hten : n / 10 % 10 = n / 10 := Nat.mod_eq_of_lt (by omega)
  simp [twoDigits, fixedNumeral, hten]

/-- The two digits of a number. -/
theorem clockDigits_eq (hn : n < 100) :
    [(0x30 + BitVec.ofNat 32 n / 10 : BitVec 32).setWidth 8, (0x30 + BitVec.ofNat 32 n % 10).setWidth 8] =
      twoDigits n := by
  have hten : (10 : BitVec 32) = BitVec.ofNat 32 10 := rfl
  rw [hten, ofNat_div (by omega) (by decide), ofNat_mod (by omega) (by decide), clockDigit_eq _ (by omega),
    clockDigit_eq _ (by omega), twoDigits_eq hn]

/-- **For 100 hours** the digits are those of the uptime. -/
theorem clockBuf_eq (hn : n < 36000000) : clockBuf (BitVec.ofNat 32 n) = uptimeText (n / 100) := by
  have hsixty : (60 : BitVec 32) = BitVec.ofNat 32 60 := rfl
  have hfrequency : clockFrequency = BitVec.ofNat 32 100 := rfl
  have hseconds : BitVec.ofNat 32 n / clockFrequency = BitVec.ofNat 32 (n / 100) :=
    ofNat_div (by omega) (by decide)
  have hminutes : BitVec.ofNat 32 (n / 100) / 60 = BitVec.ofNat 32 (n / 100 / 60) :=
    ofNat_div (by omega) (by decide)
  have hhours : BitVec.ofNat 32 (n / 100 / 60) / 60 = BitVec.ofNat 32 (n / 100 / 3600) := by
    rw [hsixty, ofNat_div (by omega) (by decide), Nat.div_div_eq_div_mul (n / 100)]
  have hsecond : BitVec.ofNat 32 (n / 100) % 60 = BitVec.ofNat 32 (n / 100 % 60) :=
    ofNat_mod (by omega) (by decide)
  have hminute : BitVec.ofNat 32 (n / 100 / 60) % 60 = BitVec.ofNat 32 (n / 100 / 60 % 60) :=
    ofNat_mod (by omega) (by decide)
  unfold clockBuf uptimeText hoursText
  rw [if_pos (by omega)]
  simp only [hseconds, hminutes, hhours, hsecond, hminute,
    ← clockDigits_eq (show n / 100 / 3600 < 100 by omega),
    ← clockDigits_eq (show n / 100 / 60 % 60 < 100 by omega),
    ← clockDigits_eq (show n / 100 % 60 < 100 by omega)]
  rfl

theorem length_uptimeText (s : Nat) : (uptimeText s).length = clockWidth ↔ s < 360000 := by
  unfold uptimeText hoursText
  by_cases hs : s / 3600 < 100
  · rw [if_pos hs]
    simp only [List.length_append, List.length_cons, List.length_nil, length_twoDigits]
    exact iff_of_true rfl (by omega)
  · have hpos := List.length_pos_iff.mpr (numeral_ne_nil decDigit 10 (s / 3600 / 100))
    rw [if_neg hs]
    simp only [List.length_append, List.length_cons, List.length_nil, length_twoDigits]
    unfold clockWidth
    omega

/-- **`update_clock`** writes its text over the corner, and nothing else. -/
theorem updateClock_cells (ticks : BitVec 32) (v : Vga) :
    Cells v (updateClock ticks v) clockColumn (clockColumn + clockWidth) fun i =>
      makeEntry ((clockBuf ticks).getD (i - clockColumn).toNat 0) clockColour := by
  refine loop_invariant (I := fun k w => Cells v w clockColumn (clockColumn + k) _) ?_ ?_
  · exact Cells.refl ..
  · intro k w hk h
    have hcell : IsCell ((clockColumn : Int) + k) := by
      unfold IsCell vgaWidth vgaHeight clockColumn
      unfold clockWidth at hk
      omega
    have hstore := h.store (by omega) hcell
    have hplace : ((clockColumn : Int) + k - clockColumn).toNat = k := by omega
    rw [Nat.cast_succ, ← add_assoc]
    simp only [hplace] at hstore
    exact hstore

/-- The corner of the screen. -/
def Vga.corner (v : Vga) : List (BitVec 16) :=
  (List.range clockWidth).map fun k : Nat => v.vga ((clockColumn : Int) + (k : Int))

/-- The clock shows the uptime after `n` ticks. -/
def ClockShows (v : Vga) (n : Nat) : Prop :=
  v.corner = (uptimeText (n / 100)).map fun c => makeEntry c clockColour

theorem corner_updateClock (ticks : BitVec 32) (v : Vga) :
    (updateClock ticks v).corner = (clockBuf ticks).map fun c => makeEntry c clockColour := by
  have hcells := (updateClock_cells ticks v).vga
  refine List.ext_getElem (by simp [Vga.corner, clockBuf, clockWidth]) fun k hk hk' => ?_
  have hlt : k < clockWidth := by simpa [Vga.corner] using hk
  have hplace : ((clockColumn : Int) + k - clockColumn).toNat = k := by omega
  rw [List.length_map] at hk'
  simp only [Vga.corner, List.getElem_map, List.getElem_range, hcells, hplace]
  rw [if_pos (by omega), List.getD_eq_getElem _ _ hk']

/-- The counter is the number of ticks, modulo `2 ^ 32`. -/
theorem TimerRun.ticks_eq (h : TimerRun n ticks v) : ticks = BitVec.ofNat 32 n := by
  induction h with
  | start => rfl
  | tick _ ih =>
    rw [timerHandler, ih]
    exact (BitVec.ofNat_add ..).symm
  | other _ v' ih => exact ih

theorem timerRun_exists (n : Nat) : ∃ (ticks : BitVec 32) (v : Vga), TimerRun n ticks v := by
  induction n with
  | zero => exact ⟨0, vgaInit ⟨fun _ => 0, 0, 0, 0, false⟩, .start _⟩
  | succ n ih =>
    obtain ⟨ticks, v, h⟩ := ih
    exact ⟨_, _, h.tick⟩

end Uptime

end AcornOS
