import Mathlib

/-!
# Calendar time

`gmtime_r` takes whole years and then whole months off the number of days. The calendar
itself is a rule for the day after a day. Years are those that fit an `int`, so that they do
not wrap.
-/

namespace RixuriOS.Libc

open List

structure Tm where
  sec : Nat
  min : Nat
  hour : Nat
  mday : Nat
  mon : Nat
  year : Nat
  wday : Nat
  yday : Nat
  isdst : Nat

def timeLeap (year : Nat) : Bool := year % 4 = 0 && year % 100 ≠ 0 || year % 400 = 0

def yearDays (year : Nat) : Nat := if timeLeap year then 366 else 365

def monthDays (year mon : Nat) : Nat :=
  [31, 28, 31, 30, 31, 30, 31, 31, 30, 31, 30, 31].getD mon 0 +
    if mon = 1 && timeLeap year then 1 else 0

def daysBeforeYear (year : Nat) : Nat := ((range' 1970 (year - 1970)).map yearDays).sum

def daysBeforeMonth (year mon : Nat) : Nat := ((range mon).map (monthDays year)).sum

theorem yearDays_pos (year : Nat) : 0 < yearDays year := by
  unfold yearDays
  split_ifs <;> decide

/-- The first loop of `gmtime_r`: the days left and the year. -/
def yearLoop (days year : Nat) : Nat × Nat :=
  if h : yearDays year ≤ days then yearLoop (days - yearDays year) (year + 1) else (days, year)
termination_by days
decreasing_by
  have := yearDays_pos year
  omega

/-- The second loop of `gmtime_r`: the days left and the month. -/
def monthLoop (year days mon : Nat) : Nat × Nat :=
  if mon < 11 ∧ monthDays year mon ≤ days then
    monthLoop year (days - monthDays year mon) (mon + 1)
  else (days, mon)
termination_by 11 - mon

def gmtimeR (t : Int) : Option Tm :=
  if t < 0 then none
  else
    let days := t.toNat / 86400
    let rem := t.toNat % 86400
    let (left, year) := yearLoop days 1970
    let (left, mon) := monthLoop year left 0
    some ⟨rem % 60, rem % 3600 / 60, rem / 3600, left + 1, mon, year - 1900, (4 + days) % 7,
      daysBeforeMonth year mon + left, 0⟩

def mktime (tm : Tm) : Int :=
  if tm.year < 70 ∨ 11 < tm.mon ∨ tm.mday < 1 then -1
  else
    let days := daysBeforeYear (tm.year + 1900) + daysBeforeMonth (tm.year + 1900) tm.mon +
      (tm.mday - 1)
    days * 86400 + tm.hour * 3600 + tm.min * 60 + tm.sec

/-! ## The calendar -/

/-- A day of the Gregorian calendar, with months and days of the year counted from 0. -/
structure Day where
  year : Nat
  mon : Nat
  mday : Nat
  wday : Nat
  yday : Nat

def gregorianLeap (year : Nat) : Prop := 4 ∣ year ∧ (¬100 ∣ year ∨ 400 ∣ year)

instance (year : Nat) : Decidable (gregorianLeap year) :=
  inferInstanceAs (Decidable (_ ∧ (_ ∨ _)))

def monthLength (year mon : Nat) : Nat :=
  if mon = 1 then if gregorianLeap year then 29 else 28
  else if mon = 3 ∨ mon = 5 ∨ mon = 8 ∨ mon = 10 then 30 else 31

def Day.next (d : Day) : Day :=
  let wday := (d.wday + 1) % 7
  if d.mday < monthLength d.year d.mon then ⟨d.year, d.mon, d.mday + 1, wday, d.yday + 1⟩
  else if d.mon < 11 then ⟨d.year, d.mon + 1, 1, wday, d.yday + 1⟩
  else ⟨d.year + 1, 0, 1, wday, 0⟩

/-- The first of January 1970, a Thursday. -/
def epoch : Day := ⟨1970, 0, 1, 4, 0⟩

theorem timeLeap_eq (year : Nat) : timeLeap year = decide (gregorianLeap year) := by
  unfold timeLeap gregorianLeap
  grind

theorem monthDays_eq {year mon : Nat} (h : mon < 12) :
    monthDays year mon = monthLength year mon := by
  unfold monthDays monthLength
  rw [timeLeap_eq]
  by_cases hy : gregorianLeap year <;> simp only [hy] <;> revert mon <;> decide

theorem daysBeforeMonth_succ (year mon : Nat) :
    daysBeforeMonth year (mon + 1) = daysBeforeMonth year mon + monthDays year mon := by
  simp [daysBeforeMonth, range_succ]

theorem daysBeforeYear_succ {year : Nat} (h : 1970 ≤ year) :
    daysBeforeYear (year + 1) = daysBeforeYear year + yearDays year := by
  obtain ⟨n, rfl⟩ := Nat.exists_eq_add_of_le h
  rw [daysBeforeYear, show 1970 + n + 1 - 1970 = n + 1 by omega, range'_concat]
  simp [daysBeforeYear]

theorem daysBeforeMonth_year (year : Nat) : daysBeforeMonth year 12 = yearDays year := by
  cases h : timeLeap year <;> simp [daysBeforeMonth, range_succ, monthDays, yearDays, h]

theorem daysBeforeMonth_mono (year : Nat) : Monotone (daysBeforeMonth year) :=
  monotone_nat_of_le_succ fun mon => by
    rw [daysBeforeMonth_succ]
    exact Nat.le_add_right _ _

/-- The day is the one with the number `n`, counted from the epoch. -/
structure Dated (n : Nat) (d : Day) : Prop where
  year : 1970 ≤ d.year
  mon : d.mon < 12
  mday : 1 ≤ d.mday ∧ d.mday ≤ monthLength d.year d.mon
  wday : d.wday = (4 + n) % 7
  yday : d.yday + 1 = daysBeforeMonth d.year d.mon + d.mday
  number : n = daysBeforeYear d.year + d.yday

section

variable {n : Nat} {d : Day} (h : Dated n d)

include h

theorem Dated.next : Dated (n + 1) d.next := by
  obtain ⟨hyear, hmon, ⟨hpos, hle⟩, hwday, hyday, hnumber⟩ := h
  have hsucc := daysBeforeMonth_succ d.year d.mon
  rw [monthDays_eq hmon] at hsucc
  have hfirst (year mon : Nat) : 1 ≤ monthLength year mon := by
    unfold monthLength
    split_ifs <;> decide
  rw [Day.next]
  split_ifs with hday hdec
  · constructor <;> dsimp only <;> omega
  · refine ⟨hyear, ?_, ⟨le_rfl, hfirst _ _⟩, ?_, ?_, ?_⟩ <;> dsimp only <;> omega
  have hlast : daysBeforeMonth d.year (d.mon + 1) = yearDays d.year := by
    rw [show d.mon + 1 = 12 by omega, daysBeforeMonth_year]
  have hyears := daysBeforeYear_succ hyear
  refine ⟨hyear.trans (Nat.le_succ _), Nat.succ_pos _, ⟨le_rfl, hfirst _ _⟩, ?_, rfl, ?_⟩ <;>
    dsimp only <;> omega

theorem Dated.year_end : d.yday < yearDays d.year := by
  have hend := daysBeforeMonth_mono d.year (Nat.succ_le_of_lt h.mon)
  rw [daysBeforeMonth_year, daysBeforeMonth_succ, monthDays_eq h.mon] at hend
  have := h.yday
  have := h.mday
  omega

end

theorem dated_iterate (n : Nat) : Dated n (Day.next^[n] epoch) := by
  induction n with
  | zero => exact ⟨le_rfl, by decide, by decide, rfl, rfl, rfl⟩
  | succ n ih =>
    rw [Function.iterate_succ_apply']
    exact ih.next

/-! ## The loops -/

theorem yearLoop_add (k year left : Nat) (h : left < yearDays (year + k)) :
    yearLoop (((range' year k).map yearDays).sum + left) year = (left, year + k) := by
  induction k generalizing year with
  | zero =>
    rw [yearLoop, dif_neg (by simpa using h)]
    simp
  | succ k ih =>
    have hrest := ih (year + 1) (by rwa [Nat.add_right_comm])
    rw [yearLoop, range'_succ, map_cons, sum_cons, dif_pos (by omega), Nat.add_assoc,
      Nat.add_sub_cancel_left, hrest, Nat.add_right_comm, Nat.add_assoc]

theorem monthLoop_add (year k mon left : Nat) (hmon : mon + k < 12)
    (h : left < monthDays year (mon + k)) :
    monthLoop year (((range' mon k).map (monthDays year)).sum + left) mon = (left, mon + k) := by
  induction k generalizing mon with
  | zero =>
    rw [monthLoop, if_neg (by simpa using fun _ => h)]
    simp
  | succ k ih =>
    have hrest := ih (mon + 1) (by omega) (by rwa [Nat.add_right_comm])
    rw [monthLoop, range'_succ, map_cons, sum_cons, if_pos (by omega), Nat.add_assoc,
      Nat.add_sub_cancel_left, hrest, Nat.add_right_comm, Nat.add_assoc]

/-- `gmtime_r` gives the day of the calendar with the time of the day, every field is in its
range, and `mktime` takes it back. -/
theorem gmtimeR_mktime (t : Nat) :
    let d : Day := Day.next^[t / 86400] epoch
    let tm : Tm := ⟨t % 60, t / 60 % 60, t / 3600 % 24, d.mday, d.mon, d.year - 1900, d.wday,
      d.yday, 0⟩
    gmtimeR t = some tm ∧ d.mon < 12 ∧ (1 ≤ d.mday ∧ d.mday ≤ monthLength d.year d.mon) ∧
      d.wday < 7 ∧ d.yday < (if gregorianLeap d.year then 366 else 365) ∧ mktime tm = t := by
  intro d
  have hd : Dated (t / 86400) d := dated_iterate _
  have hend := hd.year_end
  obtain ⟨hyear, hmon, ⟨hpos, hle⟩, hwday, hyday, hnumber⟩ := hd
  have hdays : monthDays d.year d.mon = monthLength d.year d.mon := monthDays_eq hmon
  have hbefore : d.yday = daysBeforeMonth d.year d.mon + (d.mday - 1) := by omega
  have hy : yearLoop (t / 86400) 1970 = (d.yday, d.year) := by
    have hrun := yearLoop_add (d.year - 1970) 1970 d.yday
    rw [Nat.add_sub_cancel' hyear] at hrun
    rw [hnumber, daysBeforeYear, hrun hend]
  have hm : monthLoop d.year d.yday 0 = (d.mday - 1, d.mon) := by
    have hrun := monthLoop_add d.year d.mon 0 (d.mday - 1)
    rw [Nat.zero_add, ← range_eq_range'] at hrun
    rw [hbefore, daysBeforeMonth, hrun hmon (by omega)]
  rw [yearDays, timeLeap_eq] at hend
  refine ⟨?_, hmon, ⟨hpos, hle⟩, hwday ▸ Nat.mod_lt _ (by decide), by simpa using hend, ?_⟩
  · simp only [gmtimeR, Int.toNat_natCast, hy, hm]
    rw [if_neg (by omega), Option.some.injEq, Tm.mk.injEq]
    omega
  · have hback : d.year - 1900 + 1900 = d.year := by omega
    rw [mktime, if_neg (by dsimp only; omega)]
    dsimp only
    rw [hback]
    omega

end RixuriOS.Libc
