import Mathlib.Data.Int.Notation

/-! Calendar time of the C library: `normalize` and `mktime` of `libc/time/mktime.c`. The fields are integers, for
calls in
    which no `int` overflows. A loop gets a number of rounds, and `none` is a read outside a table or a loop that is not
    through by then. -/

namespace Novino.Libc

structure Tm where
  sec : Int
  min : Int
  hour : Int
  mday : Int
  mon : Int
  year : Int
  wday : Int
  yday : Int
  isdst : Int

/-- `LEAP_YEAR`, of the year `y` after 1900. -/
def leapYear (y : Int) : Bool :=
  (y + 1900).tmod 4 == 0 && (y + 1900).tmod 100 != 0 || (y + 1900).tmod 400 == 0

def daysInYear (y : Int) : Int := if leapYear y then 366 else 365

def daysPerMonth (y m : Int) : Option Int :=
  (if leapYear y then [31, 29, 31, 30, 31, 30, 31, 31, 30, 31, 30, 31]
  else [31, 28, 31, 30, 31, 30, 31, 31, 30, 31, 30, 31])[m.toNat]?

def daysByMonth (y m : Int) : Option Int :=
  (if leapYear y then [0, 31, 60, 91, 121, 152, 182, 213, 244, 274, 305, 335]
  else [0, 31, 59, 90, 120, 151, 181, 212, 243, 273, 304, 334])[m.toNat]?

def normalize (lo hi base : Int) : Int × Int :=
  if lo < 0 then
    if (-lo).tmod base ≠ 0 then (base - (-lo).tmod base, hi - 1 - (-lo).tdiv base)
    else (0, hi - (-lo).tdiv base)
  else if base ≤ lo then (lo.tmod base, hi + lo.tdiv base)
  else (lo, hi)

/-- The loop over a day that is not positive, on the year, the month and the day. -/
def backLoop : Nat → Int → Int → Int → Option (Int × Int × Int)
  | 0, _, _, _ => none
  | n + 1, y, m, d =>
    if 0 < d then some (y, m, d)
    else if m - 1 = -1 then (daysPerMonth (y - 1) 11).bind fun tmp => backLoop n (y - 1) 11 (d + tmp)
    else (daysPerMonth y (m - 1)).bind fun tmp => backLoop n y (m - 1) (d + tmp)

/-- The loop over a day behind the end of its month. -/
def forwardLoop : Nat → Int → Int → Int → Option (Int × Int × Int)
  | 0, _, _, _ => none
  | n + 1, y, m, d => (daysPerMonth y m).bind fun tmp =>
    if d ≤ tmp then some (y, m, d)
    else if 12 ≤ m + 1 then forwardLoop n (y + 1) 0 (d - tmp)
    else forwardLoop n y (m + 1) (d - tmp)

/-- The days of `n` years from the year `i` on, added to `days`, or subtracted for `s = -1`. -/
def yearLoop (s : Int) : Nat → Int → Int → Int
  | 0, _, days => days
  | n + 1, i, days => yearLoop s n (i + 1) (days + s * daysInYear i)

def yearDays (year days : Int) : Int :=
  if 70 < year then yearLoop 1 (year - 70).toNat 70 days
  else if year < 70 then yearLoop (-1) (70 - year).toNat year days
  else days

/-- `(days + 4) % 7`, moved to the range of a weekday. -/
def weekday (days : Int) : Int :=
  if (days + 4).tmod 7 < 0 then (days + 4).tmod 7 + 7 else (days + 4).tmod 7

def mktime (tm : Tm) : Option (Int × Tm) :=
  let (sec, min) := normalize tm.sec tm.min 60
  let (min, hour) := normalize min tm.hour 60
  let (hour, mday) := normalize hour tm.mday 24
  let (mon, year) := normalize tm.mon tm.year 12
  (backLoop ((1 - mday).toNat + 1) year mon mday).bind fun (year, mon, mday) =>
  (forwardLoop (mday.toNat + 1) year mon mday).bind fun (year, mon, mday) =>
  (daysByMonth year mon).map fun before =>
    let yday := mday - 1 + before
    let days := yearDays year yday
    (days * 86400 + hour * 3600 + min * 60 + sec, ⟨sec, min, hour, mday, mon, year, weekday days, yday, tm.isdst⟩)

end Novino.Libc
