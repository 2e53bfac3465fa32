import Mathlib.Tactic.IntervalCases
import Mathlib.Order.Monotone.Basic

/-! The Gregorian calendar: dates, the day number of a date, and moments in seconds.  Months count
from 0 and days of the month from 1; `epoch` is the year that the count of days starts with. -/

namespace Ab32Vg1.ProofKit.Calendar

def Leap (y : Int) : Prop := y % 4 = 0 ∧ (y % 100 ≠ 0 ∨ y % 400 = 0)

instance (y : Int) : Decidable (Leap y) := inferInstanceAs (Decidable (_ ∧ _))

def yearDays (y : Int) : Nat := if Leap y then 366 else 365

def monthDays (y : Int) (m : Nat) : Nat :=
  if m = 1 then (if Leap y then 29 else 28)
  else if m = 3 ∨ m = 5 ∨ m = 8 ∨ m = 10 then 30
  else 31

/-- The days of the year before month `m`. -/
def beforeMonth (y : Int) : Nat → Nat
  | 0 => 0
  | m + 1 => beforeMonth y m + monthDays y m

/-- The days from the first of January of year 1 to that of year `y`. -/
def newYear (y : Int) : Int := 365 * (y - 1) + (y - 1) / 4 - (y - 1) / 100 + (y - 1) / 400

/-! ### Years -/

theorem newYear_one : newYear 1 = 0 := rfl

theorem newYear_succ (y : Int) : newYear (y + 1) = newYear y + yearDays y := by
  have hleap : Leap y ↔ y % 4 = 0 ∧ (y % 100 ≠ 0 ∨ y % 400 = 0) := Iff.rfl
  have h4 : y / 4 = (y - 1) / 4 + if y % 4 = 0 then 1 else 0 := by split <;> omega
  have h100 : y / 100 = (y - 1) / 100 + if y % 100 = 0 then 1 else 0 := by split <;> omega
  have h400 : y / 400 = (y - 1) / 400 + if y % 400 = 0 then 1 else 0 := by split <;> omega
  have hdvd : y % 100 = 0 → y % 4 = 0 := by omega
  have hdvd' : y % 400 = 0 → y % 100 = 0 := by omega
  simp only [newYear, yearDays, Int.add_sub_cancel, h4, h100, h400]
  clear h4 h100 h400
  by_cases hl : Leap y
  · rw [if_pos hl]
    have hrule := hleap.mp hl
    split_ifs <;> omega
  · rw [if_neg hl]
    have hrule := mt hleap.mpr hl
    split_ifs <;> omega

theorem newYear_lt {y y' : Int} (h : y < y') : newYear y + yearDays y ≤ newYear y' := by
  rw [← newYear_succ]
  simp only [newYear]
  omega

theorem newYear_le {y y' : Int} (h : y ≤ y') : newYear y ≤ newYear y' := by
  simp only [newYear]
  omega

theorem yearDays_pos (y : Int) : 0 < yearDays y := by
  simp only [yearDays]
  split <;> omega

theorem newYear_injective {y y' : Int} (h : newYear y = newYear y') : y = y' := by
  have hpos := yearDays_pos y
  have hpos' := yearDays_pos y'
  rcases Int.lt_trichotomy y y' with hlt | heq | hlt
  · have hle := newYear_lt hlt
    omega
  · exact heq
  · have hle := newYear_lt hlt
    omega

/-! ### Months -/

theorem beforeMonth_twelve (y : Int) : beforeMonth y 12 = yearDays y := by
  simp only [beforeMonth, monthDays, yearDays]
  by_cases hleap : Leap y <;> simp [hleap]

theorem beforeMonth_mono (y : Int) : Monotone (beforeMonth y) :=
  monotone_nat_of_le_succ fun _ => Nat.le_add_right _ _

/-- A leap year counts one day more from March on. -/
theorem beforeMonth_leap {y : Int} {m : Nat} (hm : m ≤ 12) :
    beforeMonth y m = beforeMonth 1 m + if Leap y ∧ 1 < m then 1 else 0 := by
  have hone : ¬ Leap 1 := by decide
  interval_cases m <;> by_cases hleap : Leap y <;> simp [beforeMonth, monthDays, hleap, hone]

theorem monthDays_leap (y : Int) (m : Nat) :
    monthDays y m = monthDays 1 m + if Leap y ∧ m = 1 then 1 else 0 := by
  have hone : ¬ Leap 1 := by decide
  by_cases hm : m = 1 <;> by_cases hleap : Leap y <;> simp [monthDays, hleap, hone, hm]

/-! ### Dates -/

structure Date where
  year : Int
  month : Nat
  day : Nat
  month_lt : month < 12
  day_pos : 1 ≤ day
  day_le : day ≤ monthDays year month

namespace Date

@[ext] theorem ext {d d' : Date} (hy : d.year = d'.year) (hm : d.month = d'.month)
    (hd : d.day = d'.day) : d = d' := by
  cases d
  cases d'
  subst hy hm hd
  rfl

/-- The day of the year, from 0. -/
def yearDay (d : Date) : Nat := beforeMonth d.year d.month + (d.day - 1)

/-- The day number, 0 for the first day of the epoch. -/
def number (epoch : Int) (d : Date) : Int := newYear d.year - newYear epoch + d.yearDay

variable {d d' : Date} {epoch : Int}

theorem yearDay_lt_month {m : Nat} (h : d.month < m) : d.yearDay < beforeMonth d.year m := by
  have hmono := beforeMonth_mono d.year (show d.month + 1 ≤ m from h)
  have hpos := d.day_pos
  have hle := d.day_le
  simp only [beforeMonth] at hmono
  simp only [yearDay]
  omega

theorem yearDay_lt : d.yearDay < yearDays d.year :=
  beforeMonth_twelve d.year ▸ d.yearDay_lt_month d.month_lt

theorem le_yearDay : beforeMonth d.year d.month ≤ d.yearDay := Nat.le_add_right _ _

/-- In one year, a later month has the later days. -/
theorem month_eq (hy : d.year = d'.year) (h : d.yearDay = d'.yearDay) : d.month = d'.month := by
  have hle := d.le_yearDay
  have hle' := d'.le_yearDay
  rcases Nat.lt_trichotomy d.month d'.month with hlt | heq | hlt
  · have hday := yearDay_lt_month hlt
    rw [hy] at hday
    omega
  · exact heq
  · have hday := yearDay_lt_month hlt
    rw [← hy] at hday
    omega

/-- A day number belongs to one date. -/
theorem number_injective (h : d.number epoch = d'.number epoch) : d = d' := by
  have hlt := d.yearDay_lt
  have hlt' := d'.yearDay_lt
  simp only [number] at h
  have hy : d.year = d'.year := by
    rcases Int.lt_trichotomy d.year d'.year with hyear | heq | hyear
    · have hle := newYear_lt hyear
      omega
    · exact heq
    · have hle := newYear_lt hyear
      omega
  have hday : d.yearDay = d'.yearDay := by
    rw [hy] at h
    omega
  have hm := month_eq hy hday
  refine ext hy hm ?_
  have hpos := d.day_pos
  have hpos' := d'.day_pos
  simp only [yearDay, hy, hm] at hday
  omega

end Date

/-! ### Moments -/

/-- A second of the calendar. -/
structure Moment where
  date : Date
  hour : Nat
  minute : Nat
  second : Nat
  hour_lt : hour < 24
  minute_lt : minute < 60
  second_lt : second < 60

namespace Moment

/-- The seconds since the start of the epoch. -/
def seconds (epoch : Int) (mo : Moment) : Int :=
  ((mo.date.number epoch * 24 + mo.hour) * 60 + mo.minute) * 60 + mo.second

/-- A number of seconds belongs to one moment. -/
theorem seconds_injective {epoch : Int} {mo mo' : Moment}
    (h : mo.seconds epoch = mo'.seconds epoch) : mo = mo' := by
  obtain ⟨date, hour, minute, second, hh, hm, hs⟩ := mo
  obtain ⟨date', hour', minute', second', hh', hm', hs'⟩ := mo'
  simp only [seconds] at h
  have hnum : date.number epoch = date'.number epoch := by omega
  have hhour : hour = hour' := by omega
  have hminute : minute = minute' := by omega
  have hsecond : second = second' := by omega
  have hdate := Date.number_injective hnum
  subst hdate hhour hminute hsecond
  rfl

theorem number_nonneg {epoch : Int} {mo : Moment} (h : 0 ≤ mo.seconds epoch) :
    0 ≤ mo.date.number epoch := by
  have hhour := mo.hour_lt
  have hminute := mo.minute_lt
  have hsecond := mo.second_lt
  simp only [seconds] at h
  omega

theorem epoch_le {epoch : Int} {mo : Moment} (h : 0 ≤ mo.seconds epoch) :
    epoch ≤ mo.date.year := by
  by_contra hlt
  have hnumber := number_nonneg h
  have hle := newYear_lt (show mo.date.year < epoch by omega)
  have hday := mo.date.yearDay_lt
  simp only [Date.number] at hnumber
  omega

/-- The day of the week when the epoch starts on day `first` of it. -/
def weekDay (epoch first : Int) (mo : Moment) : Int := (first + mo.date.number epoch) % 7

end Moment

end Ab32Vg1.ProofKit.Calendar
