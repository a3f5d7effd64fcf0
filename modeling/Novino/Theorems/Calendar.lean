import Mathlib.Tactic.IntervalCases
import Mathlib.Tactic.Ring
import Mathlib.Order.SuccPred.Basic
import Novino.Libc.Time

/-! The proleptic Gregorian calendar, and the instant that a broken-down time denotes. -/

namespace Novino.Libc

/-- The day on which the `k`-th month after January 1900 begins, counted from 1 January 1970. Years are taken from March
on: the leap day is then the last of its year, and the months before the `j`-th have `(153 * j + 2) / 5` days. -/
def firstDay (k : Int) : Int :=
  let j := k + 22798  -- from March of the year 0
  365 * (j / 12) + j / 48 - j / 1200 + j / 4800 + (153 * (j % 12) + 2) / 5 - 719468

namespace Tm

/-- The day of a date, whatever its fields, counted from 1 January 1970. -/
def day (tm : Tm) : Int := firstDay (12 * tm.year + tm.mon) + tm.mday - 1

/-- The seconds from 1970 to the instant that the fields denote, whatever their ranges. -/
def instant (tm : Tm) : Int := 86400 * tm.day + 3600 * tm.hour + 60 * tm.min + tm.sec

/-- Every field has its range, the day of the month that of its month, and the derived fields are those of the date. -/
structure Normal (tm : Tm) : Prop where
  sec : 0 ≤ tm.sec ∧ tm.sec < 60
  min : 0 ≤ tm.min ∧ tm.min < 60
  hour : 0 ≤ tm.hour ∧ tm.hour < 24
  mon : 0 ≤ tm.mon ∧ tm.mon < 12
  mday : 1 ≤ tm.mday ∧ tm.day < firstDay (12 * tm.year + tm.mon + 1)
  yday : tm.yday = tm.day - firstDay (12 * tm.year)
  wday : tm.wday = (tm.day + 4) % 7

end Tm

theorem leapYear_iff (y : Int) : leapYear y ↔ 4 ∣ y + 1900 ∧ ¬ 100 ∣ y + 1900 ∨ 400 ∣ y + 1900 := by
  simp [leapYear, Int.dvd_iff_tmod_eq_zero]

theorem daysInYear_eq (y : Int) : daysInYear y = firstDay (12 * (y + 1)) - firstDay (12 * y) := by
  simp only [daysInYear, firstDay]
  split <;> rename_i h <;> rw [leapYear_iff] at h <;> omega

variable {y m d : Int} {n : Nat}

theorem days_eq (hm : 0 ≤ m ∧ m < 12) :
    daysPerMonth y m = some (firstDay (12 * y + m + 1) - firstDay (12 * y + m)) ∧
      daysByMonth y m = some (firstDay (12 * y + m) - firstDay (12 * y)) := by
  obtain ⟨hlo, hhi⟩ := hm
  simp only [daysPerMonth, daysByMonth, firstDay]
  split_ifs with hleap <;> rw [leapYear_iff] at hleap <;> interval_cases m <;>
    exact ⟨congrArg some (by omega), congrArg some (by omega)⟩

theorem firstDay_lt {k l : Int} (h : k < l) : firstDay k < firstDay l := by
  refine strictMono_int_of_lt_succ (fun i => ?_) h
  simp only [firstDay]
  omega

theorem normalize_eq (lo hi : Int) {base : Int}
    (h : 0 < base) : normalize lo hi base = (lo % base, hi + lo / base) := by
  unfold normalize
  split_ifs with hneg hrest hlo
  · have hdvd : ¬ base ∣ lo := by rwa [Ne, ← Int.dvd_iff_tmod_eq_zero, Int.dvd_neg] at hrest
    rw [Int.tmod_eq_emod_of_nonneg (by omega), Int.tdiv_eq_ediv_of_nonneg (by omega), Int.neg_emod, Int.neg_ediv]
    simp [hdvd, abs_of_pos h, Int.sign_eq_one_of_pos h]
  · have hdvd : base ∣ lo := by rwa [not_not, ← Int.dvd_iff_tmod_eq_zero, Int.dvd_neg] at hrest
    rw [Int.tdiv_eq_ediv_of_nonneg (by omega), Int.neg_ediv_of_dvd hdvd, Int.emod_eq_zero_of_dvd hdvd, sub_neg_eq_add]
  · rw [Int.tmod_eq_emod_of_nonneg (by omega), Int.tdiv_eq_ediv_of_nonneg (by omega)]
  · rw [Int.emod_eq_of_lt (by omega) (by omega), Int.ediv_eq_zero_of_lt (by omega) (by omega), add_zero]

/-- The dates that a loop can end with on the day of `(y, m, d)`, if `P` holds for the month and its day. -/
def Ends (y m d : Int) (P : Int → Int → Prop) (r : Option (Int × Int × Int)) : Prop :=
  ∃ y' m' d', r = some (y', m', d') ∧ (0 ≤ m' ∧ m' < 12) ∧ P (12 * y' + m') d' ∧
    firstDay (12 * y' + m') + d' = firstDay (12 * y + m) + d

theorem Ends.congr {y₁ m₁ d₁ : Int} {P r} (h : Ends y₁ m₁ d₁ P r)
    (hday : firstDay (12 * y₁ + m₁) + d₁ = firstDay (12 * y + m) + d) : Ends y m d P r := by
  obtain ⟨y', m', d', hr, hm', hd', heq⟩ := h
  exact ⟨y', m', d', hr, hm', hd', heq.trans hday⟩

theorem backLoop_spec (hm : 0 ≤ m ∧ m < 12) (hn : (1 - d).toNat < n) :
    Ends y m d (fun _ d' => 1 ≤ d') (backLoop n y m d) := by
  induction n generalizing y m d with
  | zero => omega
  | succ n ih =>
    have hlt := firstDay_lt (sub_one_lt (12 * y + m))
    unfold backLoop
    split_ifs with hd hm0
    · exact ⟨y, m, d, rfl, hm, hd, rfl⟩
    · have hk : 12 * (y - 1) + 11 = 12 * y + m - 1 := by omega
      rw [(days_eq (by omega)).1, hk, sub_add_cancel]
      exact (ih (by omega) (by omega)).congr (by rw [hk]; omega)
    · have hk : 12 * y + (m - 1) = 12 * y + m - 1 := by omega
      rw [(days_eq (by omega)).1, hk, sub_add_cancel]
      exact (ih (by omega) (by omega)).congr (by rw [hk]; omega)

theorem forwardLoop_spec (hm : 0 ≤ m ∧ m < 12) (hd : 1 ≤ d) (hn : d.toNat < n) :
    Ends y m d (fun k d' => 1 ≤ d' ∧ firstDay k + d' ≤ firstDay (k + 1)) (forwardLoop n y m d) := by
  induction n generalizing y m d with
  | zero => omega
  | succ n ih =>
    have hlt := firstDay_lt (lt_add_one (12 * y + m))
    rw [forwardLoop, (days_eq hm).1, Option.bind_some]
    split_ifs with hlast hm'
    · exact ⟨y, m, d, rfl, hm, ⟨hd, by omega⟩, rfl⟩
    · have hk : 12 * (y + 1) + 0 = 12 * y + m + 1 := by omega
      exact (ih (by omega) (by omega) (by omega)).congr (by rw [hk]; omega)
    · exact (ih (by omega) (by omega) (by omega)).congr (by rw [← add_assoc]; omega)

theorem yearLoop_eq (s : Int) (n : Nat) (i days : Int) :
    yearLoop s n i days = days + s * (firstDay (12 * (i + n)) - firstDay (12 * i)) := by
  induction n generalizing i days with
  | zero => simp [yearLoop]
  | succ n ih =>
    rw [yearLoop, ih, daysInYear_eq, Nat.cast_succ, add_assoc i 1, add_comm 1 (n : Int)]
    ring

theorem yearDays_eq (year days : Int) : yearDays year days = days + firstDay (12 * year) := by
  have hzero : firstDay (12 * 70) = 0 := rfl
  unfold yearDays
  split_ifs with hlate hearly
  · rw [yearLoop_eq, Int.toNat_of_nonneg (by omega), add_sub_cancel]
    omega
  · rw [yearLoop_eq, Int.toNat_of_nonneg (by omega), add_sub_cancel]
    omega
  · rw [show year = 70 by omega]
    omega

theorem weekday_eq (days : Int) : weekday days = (days + 4) % 7 := by
  rw [weekday, Int.tmod_eq_emod]
  split_ifs <;> omega

/-- `mktime` always returns the instant that its argument names, and brings the fields into their ranges. -/
theorem mktime_instant (tm : Tm) : ∃ t, mktime tm = some (tm.instant, t) ∧ t.Normal ∧ t.instant = tm.instant := by
  have hk : 12 * (tm.year + tm.mon / 12) + tm.mon % 12 = 12 * tm.year + tm.mon := by omega
  simp only [mktime, normalize_eq, Nat.ofNat_pos]
  generalize hhour : tm.hour + (tm.min + tm.sec / 60) / 60 = hour
  obtain ⟨y₁, m₁, d₁, hback, hm₁, hd₁, hday₁⟩ := backLoop_spec (y := tm.year + tm.mon / 12) (m := tm.mon % 12)
    (d := tm.mday + hour / 24) (by omega) (Nat.lt_succ_self _)
  obtain ⟨y, m, d, hforward, hm, hd, hday⟩ := forwardLoop_spec (y := y₁) hm₁ hd₁ (Nat.lt_succ_self _)
  -- both loops keep the day, which the sum over the years then gives
  rw [hk] at hday₁
  rw [hback, Option.bind_some, hforward, Option.bind_some, (days_eq hm).2, Option.map_some, yearDays_eq, weekday_eq]
  refine ⟨_, congrArg some (Prod.ext ?_ rfl), ⟨?_, ?_, ?_, hm, ?_, ?_, ?_⟩, ?_⟩
  all_goals simp only [Tm.instant, Tm.day]; omega

end Novino.Libc
