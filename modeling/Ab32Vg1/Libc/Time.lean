import Ab32Vg1.ProofKit.Calendar

/-! `gmtime_r` and `timegm` of `time.c`.  `int` and `time_t` are unbounded here: from a time below
`2 ^ 31`, and from fields whose carries fit in an `int`, no value of these functions overflows. -/

namespace Ab32Vg1.Libc

open ProofKit.Calendar

/-- `struct tm`. -/
structure Tm where
  tm_sec : Int
  tm_min : Int
  tm_hour : Int
  tm_mday : Int
  tm_mon : Int
  tm_year : Int
  tm_wday : Int
  tm_yday : Int
  tm_isdst : Int
  deriving DecidableEq, Repr

def SPD : Int := 24 * 60 * 60

def __spm : List Int := [0, 31, 59, 90, 120, 151, 181, 212, 243, 273, 304, 334, 365]

/-- The read of `__spm[i]`; `none` outside of the table. -/
def readSpm (i : Int) : Option Int := if 0 ≤ i then __spm[i.toNat]? else none

def __isleap (year : Int) : Bool :=
  year.tmod 4 = 0 ∧ (year.tmod 100 ≠ 0 ∨ year.tmod 400 = 0)

/-! ### From a time to its fields -/

theorem isleap_iff {y : Int} : __isleap y = true ↔ Leap y := by
  have hdvd (n : Int) : y.tmod n = 0 ↔ y % n = 0 :=
    Int.dvd_iff_tmod_eq_zero.symm.trans Int.dvd_iff_emod_eq_zero
  simp only [__isleap, decide_eq_true_eq, hdvd, ne_eq, Leap]

/-- The first loop of `gmtime_r`: the year, and the days of it that have passed. -/
def yearLoop (i work : Int) : Int × Int :=
  let k : Int := if __isleap i then 366 else 365
  if work ≥ k then yearLoop (i + 1) (work - k) else (i, work)
termination_by work.toNat
decreasing_by
  have hk : (365 : Int) ≤ if h : __isleap i then 366 else 365 := by split <;> decide
  omega

/-- The second loop of `gmtime_r`. -/
def monthLoop (work : Int) : Nat → Option Nat
  | 0 => some 0
  | i + 1 => do
    if (← readSpm (i + 1)) > work then monthLoop work i else some (i + 1)

def gmtime_r (timep : Int) : Option Tm := do
  let work := timep.tmod SPD
  let tm_sec := work.tmod 60
  let work := work.tdiv 60
  let tm_min := work.tmod 60
  let tm_hour := work.tdiv 60
  let work := timep.tdiv SPD
  let tm_wday := (4 + work).tmod 7
  let year := yearLoop 1970 work
  let i := year.1
  let work := year.2
  let tm_year := i - 1900
  let tm_yday := work
  let leapDay := __isleap i && work > 58
  let tm_mday := if leapDay && work = 59 then 2 else 1
  let work := if leapDay then work - 1 else work
  let tm_mon ← monthLoop work 11
  let tm_mday := tm_mday + (work - (← readSpm tm_mon))
  some { tm_sec, tm_min, tm_hour, tm_mday, tm_mon, tm_year, tm_wday, tm_yday, tm_isdst := 0 }

/-! ### From the fields to the time -/

/-- The carries of `timegm` in front of its loop. -/
def carrySec (t : Tm) : Tm :=
  if t.tm_sec > 60 then
    { t with tm_min := t.tm_min + t.tm_sec.tdiv 60, tm_sec := t.tm_sec.tmod 60 }
  else t

def carryMin (t : Tm) : Tm :=
  if t.tm_min > 60 then
    { t with tm_hour := t.tm_hour + t.tm_min.tdiv 60, tm_min := t.tm_min.tmod 60 }
  else t

def carryHour (t : Tm) : Tm :=
  if t.tm_hour > 24 then
    { t with tm_mday := t.tm_mday + t.tm_hour.tdiv 24, tm_hour := t.tm_hour.tmod 24 }
  else t

def carryMon (t : Tm) : Tm :=
  if t.tm_mon > 12 then
    { t with tm_year := t.tm_year + t.tm_mon.tdiv 12, tm_mon := t.tm_mon.tmod 12 }
  else t

def carry (t : Tm) : Tm := carryMon (carryHour (carryMin (carrySec t)))

/-- The condition of the loop of `timegm`. -/
def monthOver (t : Tm) : Option Bool := do
  some (t.tm_mday > (← readSpm (1 + t.tm_mon)))

/-- A turn of the loop of `timegm`. -/
def monthTurn (t : Tm) : Option Tm := do
  let tm_mday := if t.tm_mon = 1 ∧ __isleap (t.tm_year + 1900) then t.tm_mday - 1 else t.tm_mday
  let t := { t with tm_mday := tm_mday - (← readSpm t.tm_mon), tm_mon := t.tm_mon + 1 }
  some (if t.tm_mon > 11 then { t with tm_mon := 0, tm_year := t.tm_year + 1 } else t)

theorem readSpm_eq_some {i n : Int} (h : readSpm i = some n) :
    0 ≤ i ∧ i ≤ 12 ∧ (i = 0 ∧ n = 0 ∨ 31 ≤ n) := by
  simp only [readSpm] at h
  split at h
  case isTrue hpos =>
    have hlt := (List.getElem?_eq_some_iff.mp h).1
    simp only [__spm, List.length_cons, List.length_nil] at hlt
    have hi : i < 13 := by omega
    interval_cases i <;> simp [__spm] at h <;> subst h <;> simp
  case isFalse => cases h

theorem monthOver_eq_some {t : Tm} {b : Bool} (h : monthOver t = some b) :
    ∃ n, readSpm (1 + t.tm_mon) = some n ∧ (b = true ↔ n < t.tm_mday) := by
  obtain ⟨n, hn, hb⟩ := Option.bind_eq_some_iff.mp h
  refine ⟨n, hn, ?_⟩
  rw [← Option.some.inj hb, decide_eq_true_eq]

/-- A turn takes days away, or it leaves January. -/
theorem monthTurn_decreases {t t' : Tm} (hmore : monthOver t = some true)
    (hturn : monthTurn t = some t') :
    t'.tm_mday.toNat < t.tm_mday.toNat ∨
      t'.tm_mday.toNat = t.tm_mday.toNat ∧ (12 - t'.tm_mon).toNat < (12 - t.tm_mon).toNat := by
  obtain ⟨n, hn, hday⟩ := monthOver_eq_some hmore
  obtain ⟨k, hk, ht⟩ := Option.bind_eq_some_iff.mp hturn
  obtain ⟨hlo, hhi, hn⟩ := readSpm_eq_some hn
  obtain ⟨hpos, -, hk⟩ := readSpm_eq_some hk
  have hlt := hday.mp rfl
  simp only [Option.some.injEq] at ht
  subst ht
  split_ifs <;> simp only <;> omega

/-- The loop of `timegm`. -/
def monthsLoop (t : Tm) : Option Tm :=
  match _hmore : monthOver t with
  | none => none
  | some false => some t
  | some true =>
    match _hturn : monthTurn t with
    | none => none
    | some t' => monthsLoop t'
termination_by (t.tm_mday.toNat, (12 - t.tm_mon).toNat)
decreasing_by
  rw [Prod.lex_def]
  exact monthTurn_decreases _hmore _hturn

/-- The days from 1970 to the first day of the year `years` later. `>>` and `&` round down. -/
def yearStart (years : Int) : Int :=
  let day := years * 365 + (years + 1).tdiv 4
  if years ≥ 131 then
    let years := (years - 131).tdiv 100
    let day := day - ((years / 4) * 3 + 1)
    let years := years % 4
    let years := if years = 3 then years - 1 else years
    day - years
  else day

/-- `timegm`: the time, and the fields as it leaves them. -/
def timegm (t : Tm) : Option (Int × Tm) := do
  let years := t.tm_year - 70
  let t ← monthsLoop (carry t)
  if t.tm_year < 70 then some (-1, t)
  else
    let leapDay := if __isleap (t.tm_year + 1900) ∧ t.tm_mon > 1 then 1 else 0
    let t := { t with tm_yday := (← readSpm t.tm_mon) + t.tm_mday - 1 + leapDay }
    let day := yearStart years + t.tm_yday
    let t := { t with tm_wday := (day + 4).tmod 7 }
    some (((day * 24 + t.tm_hour) * 60 + t.tm_min) * 60 + t.tm_sec, t)

/-! ### The table and the calendar -/

/-- The table holds the days of a common year before each month. -/
theorem readSpm_eq {m : Nat} (hm : m ≤ 12) : readSpm m = some (beforeMonth 1 m : Int) := by
  interval_cases m <;> decide

theorem leap_days {y : Int} : (if __isleap y then 366 else 365 : Int) = yearDays y := by
  simp only [isleap_iff, yearDays]
  split <;> rfl

/-- The first loop stops in the year of its day. -/
theorem yearLoop_eq {i work : Int} (hwork : 0 ≤ work) :
    i ≤ (yearLoop i work).1 ∧ 0 ≤ (yearLoop i work).2 ∧
    (yearLoop i work).2 < yearDays (yearLoop i work).1 ∧
    newYear (yearLoop i work).1 + (yearLoop i work).2 = newYear i + work := by
  fun_induction yearLoop i work with
  | case1 i work k hk ih =>
    have hnext := newYear_succ i
    have hdays : k = yearDays i := leap_days
    obtain ⟨hle, hpos, hlt, hsum⟩ := ih (by omega)
    exact ⟨by omega, hpos, hlt, by omega⟩
  | case2 i work k hk =>
    have hdays : k = yearDays i := leap_days
    have hlt : work < yearDays i := by omega
    exact ⟨le_refl i, hwork, hlt, rfl⟩

/-- The second loop stops at the last month that starts by `work`. -/
theorem monthLoop_eq {work : Int} (hwork : 0 ≤ work) {i : Nat} (hi : i ≤ 12) :
    ∃ m ≤ i, monthLoop work i = some m ∧ (beforeMonth 1 m : Int) ≤ work ∧
      ∀ j, m < j → j ≤ i → work < beforeMonth 1 j := by
  induction i with
  | zero => exact ⟨0, le_refl 0, rfl, hwork, fun j hj hle => by omega⟩
  | succ i ih =>
    have hread : readSpm ((i : Int) + 1) = some (beforeMonth 1 (i + 1) : Int) := readSpm_eq hi
    by_cases hlate : (beforeMonth 1 (i + 1) : Int) > work
    · obtain ⟨m, hm, hloop, hle, hlast⟩ := ih (by omega)
      refine ⟨m, by omega, ?_, hle, fun j hj hji => ?_⟩
      · simp only [monthLoop, hread, Option.bind_eq_bind, Option.bind_some, if_pos hlate, hloop]
      · rcases Nat.lt_or_eq_of_le hji with hlt | rfl
        · exact hlast j hj (by omega)
        · exact hlate
    · refine ⟨i + 1, le_refl _, ?_, by omega, fun j hj hji => by omega⟩
      simp only [monthLoop, hread, Option.bind_eq_bind, Option.bind_some, if_neg hlate]

/-! ### The date of a day -/

/-- The date and the time of day in the fields. -/
structure Tm.Shows (t : Tm) (mo : Moment) : Prop where
  tm_sec : t.tm_sec = mo.second
  tm_min : t.tm_min = mo.minute
  tm_hour : t.tm_hour = mo.hour
  tm_mday : t.tm_mday = mo.date.day
  tm_mon : t.tm_mon = mo.date.month
  tm_year : t.tm_year = mo.date.year - 1900

/-- The fields hold a moment, with the days of its week and of its year. -/
structure Tm.Denotes (t : Tm) (mo : Moment) : Prop extends t.Shows mo where
  tm_wday : t.tm_wday = mo.weekDay 1970 4
  tm_yday : t.tm_yday = mo.date.yearDay

/-- The day of the month is counted from the table, with the 29th of February apart. -/
theorem date_of_day {y : Int} {w m : Nat} (hw : w < yearDays y) {w' : Nat}
    (hw' : w' = if Leap y ∧ 58 < w then w - 1 else w) (hm : m ≤ 11)
    (hle : beforeMonth 1 m ≤ w') (hlast : ∀ j, m < j → j ≤ 11 → w' < beforeMonth 1 j) :
    ∃ d : Date, d.year = y ∧ d.month = m ∧ d.yearDay = w ∧
      d.day = (if Leap y ∧ w = 59 then 2 else 1) + (w' - beforeMonth 1 m) := by
  have hnext : w' < beforeMonth 1 m + monthDays 1 m := by
    rcases Nat.lt_or_eq_of_le hm with hlt | rfl
    · exact hlast (m + 1) (by omega) (by omega)
    · have hyear : beforeMonth 1 11 + monthDays 1 11 = 365 := rfl
      simp only [yearDays] at hw
      by_cases hleap : Leap y
      · simp only [hleap, true_and, if_true] at hw hw'
        split at hw' <;> omega
      · simp only [hleap, false_and, if_false] at hw hw'
        omega
  have hmarch : 1 < m ↔ 59 ≤ w' := by
    have hfeb : beforeMonth 1 2 = 59 := rfl
    constructor
    · intro h
      exact hfeb ▸ le_trans (beforeMonth_mono 1 (show 2 ≤ m from h)) hle
    · intro h
      by_contra hearly
      have hmono : beforeMonth 1 (m + 1) ≤ beforeMonth 1 2 := beforeMonth_mono 1 (by omega)
      simp only [beforeMonth] at hmono hfeb
      omega
  have hbefore := beforeMonth_leap (y := y) (show m ≤ 12 by omega)
  have hdays := monthDays_leap y m
  have hjan : m = 0 → beforeMonth 1 m = 0 ∧ monthDays 1 m = 31 := by rintro rfl; exact ⟨rfl, rfl⟩
  have hfeb : m = 1 → beforeMonth 1 m = 31 ∧ monthDays 1 m = 28 := by rintro rfl; exact ⟨rfl, rfl⟩
  have hfits : (if Leap y ∧ w = 59 then 2 else 1) + (w' - beforeMonth 1 m) ≤ monthDays y m ∧
      beforeMonth y m + ((if Leap y ∧ w = 59 then 2 else 1) + (w' - beforeMonth 1 m) - 1) = w := by
    by_cases hleap : Leap y
    · simp only [hleap, true_and] at hw' hbefore hdays ⊢
      by_cases hday : w = 59
      · rw [if_pos (show 58 < w by omega)] at hw'
        rw [if_pos hday]
        split_ifs at hbefore hdays <;> omega
      · split_ifs at hw' hbefore hdays ⊢ <;> omega
    · simp only [hleap, false_and, if_false] at hw' hbefore hdays ⊢
      omega
  refine ⟨⟨y, m, _, by omega, ?_, hfits.1⟩, rfl, rfl, hfits.2, rfl⟩
  split_ifs <;> omega

/-- From 1970 on, `gmtime_r` gives the moment of a time. -/
theorem gmtime_r_denotes (t : Nat) :
    ∃ r mo, gmtime_r t = some r ∧ r.Denotes mo ∧ r.tm_isdst = 0 ∧ mo.seconds 1970 = t := by
  have hspd : SPD = 86400 := rfl
  have hpos : 0 ≤ (t : Int) := Int.natCast_nonneg t
  have hwork : 0 ≤ (t : Int) / 86400 := by omega
  obtain ⟨-, hday, hlt, hsum⟩ := yearLoop_eq (i := 1970) hwork
  rcases hyear : yearLoop 1970 ((t : Int) / 86400) with ⟨y, w⟩
  rw [hyear] at hday hlt hsum
  simp only at hday hlt hsum
  lift w to Nat using hday
  have hw : w < yearDays y := by omega
  have hday0 : 0 ≤ ((if Leap y ∧ 58 < w then w - 1 else w : Nat) : Int) := by omega
  obtain ⟨m, hm, hloop, hle, hlast⟩ := monthLoop_eq hday0 (show 11 ≤ 12 by decide)
  obtain ⟨d, hdy, hdm, hdw, hdd⟩ := date_of_day hw rfl hm (by exact_mod_cast hle)
    (by exact_mod_cast hlast)
  have hread := readSpm_eq (show m ≤ 12 by omega)
  have hleft : (if (__isleap y && decide ((w : Int) > 58)) = true then (w : Int) - 1 else w) =
      ((if Leap y ∧ 58 < w then w - 1 else w : Nat) : Int) := by
    simp only [Bool.and_eq_true, isleap_iff, decide_eq_true_eq]
    by_cases hleap : Leap y ∧ 58 < w
    · rw [if_pos hleap, if_pos ⟨hleap.1, by omega⟩]
      omega
    · rw [if_neg hleap, if_neg fun h => hleap ⟨h.1, by omega⟩]
  have hmday : (if (__isleap y && decide ((w : Int) > 58) && decide ((w : Int) = 59)) = true then 2
      else 1) + (((if Leap y ∧ 58 < w then w - 1 else w : Nat) : Int) - beforeMonth 1 m) = d.day := by
    simp only [Bool.and_eq_true, isleap_iff, decide_eq_true_eq]
    by_cases hday : Leap y ∧ w = 59
    · rw [if_pos hday] at hdd
      rw [if_pos ⟨⟨hday.1, by omega⟩, by omega⟩]
      omega
    · rw [if_neg hday] at hdd
      rw [if_neg fun h => hday ⟨h.1.1, by omega⟩]
      omega
  have hnumber : d.number 1970 = (t : Int) / 86400 := by
    simp only [Date.number, hdy, hdw]
    omega
  let mo : Moment := ⟨d, t / 3600 % 24, t / 60 % 60, t % 60, by omega, by omega, by omega⟩
  refine ⟨⟨mo.second, mo.minute, mo.hour, d.day, d.month, y - 1900, mo.weekDay 1970 4, w, 0⟩, mo,
    ?_, ⟨⟨rfl, rfl, rfl, rfl, rfl, by rw [← hdy]⟩, rfl, by rw [← hdw]⟩, rfl, ?_⟩
  · simp only [gmtime_r, hspd, Int.tmod_eq_emod_of_nonneg, Int.tdiv_eq_ediv_of_nonneg, hpos, hyear,
      hleft, hloop, hread, hmday, Option.bind_eq_bind, Option.bind_some, Option.some.injEq,
      Tm.mk.injEq, Moment.weekDay, hnumber, mo]
    have hsec : (0 : Int) ≤ t % 86400 := Int.emod_nonneg _ (by decide)
    have hmin : (0 : Int) ≤ t % 86400 / 60 := Int.ediv_nonneg hsec (by decide)
    have hwday : (0 : Int) ≤ 4 + t / 86400 := by omega
    simp only [Int.tmod_eq_emod_of_nonneg, Int.tdiv_eq_ediv_of_nonneg, hsec, hmin, hwday]
    refine ⟨?_, ?_, ?_, trivial, ?_, trivial, trivial, trivial, trivial⟩ <;> omega
  · simp only [Moment.seconds, hnumber, mo]
    omega

/-! ### The loop over the months -/

theorem monthsLoop_stop {t : Tm} (h : monthOver t = some false) : monthsLoop t = some t := by
  rw [monthsLoop]
  split
  · simp_all
  · rfl
  · simp_all

theorem monthsLoop_next {t t' : Tm} (hmore : monthOver t = some true)
    (hturn : monthTurn t = some t') : monthsLoop t = monthsLoop t' := by
  rw [monthsLoop]
  split
  · simp_all
  · simp_all
  · split <;> simp_all

theorem monthOver_eq {t : Tm} {m : Nat} (hm : t.tm_mon = m) (hlt : m < 12) :
    monthOver t = some (decide (t.tm_mday > beforeMonth 1 (m + 1))) := by
  have hread := readSpm_eq (show m + 1 ≤ 12 from hlt)
  rw [monthOver, hm, show (1 : Int) + m = (m + 1 : Nat) by omega, hread]
  rfl

/-- The days of one month are never more than the table's days up to its end. -/
theorem monthDays_le_beforeMonth (y : Int) {m : Nat} (hm : m < 12) :
    monthDays y m ≤ beforeMonth 1 (m + 1) := by
  have hdays := monthDays_leap y m
  have hsucc : beforeMonth 1 (m + 1) = beforeMonth 1 m + monthDays 1 m := rfl
  have hfeb : m = 1 → beforeMonth 1 m = 31 := by rintro rfl; rfl
  split_ifs at hdays <;> omega

/-! ### The days before a year -/

theorem yearStart_eq {years : Int} (h : 0 ≤ years) :
    yearStart years = newYear (1970 + years) - newYear 1970 := by
  have hepoch : newYear 1970 = 719162 := by decide
  rw [hepoch]
  simp only [yearStart, newYear]
  rw [Int.tdiv_eq_ediv_of_nonneg (by omega)]
  by_cases hlate : years ≥ 131
  · rw [if_pos hlate, Int.tdiv_eq_ediv_of_nonneg (by omega)]
    split <;> omega
  · rw [if_neg hlate]
    omega

theorem yearStart_lt {years years' : Int} (hlt : years < years') (h : 0 ≤ years') :
    yearStart years < yearStart years' := by
  by_cases hpos : 0 ≤ years
  · rw [yearStart_eq hpos, yearStart_eq h]
    have hle := newYear_lt (show 1970 + years < 1970 + years' by omega)
    have hdays := yearDays_pos (1970 + years)
    omega
  · have hstart : 0 ≤ yearStart years' := by
      rw [yearStart_eq h]
      have hle := newYear_le (show 1970 ≤ 1970 + years' by omega)
      omega
    have hneg : yearStart years < 0 := by
      simp only [yearStart]
      rw [if_neg (by omega)]
      have hleap : (years + 1).tdiv 4 ≤ 0 :=
        Int.tdiv_le_tdiv (a := years + 1) (b := 0) (by decide) (by omega)
      omega
    omega

/-! ### A result of timegm -/

variable {t t' : Tm} {mo : Moment}

/-- The day of the year as `timegm` counts it. -/
theorem Tm.Shows.yearDay (h : t.Shows mo) :
    (beforeMonth 1 mo.date.month : Int) + t.tm_mday - 1 +
      (if __isleap (t.tm_year + 1900) ∧ t.tm_mon > 1 then 1 else 0) = mo.date.yearDay := by
  have hbefore := beforeMonth_leap (y := mo.date.year) (Nat.le_of_lt mo.date.month_lt)
  have hpos := mo.date.day_pos
  simp only [isleap_iff, h.tm_year, h.tm_mon, h.tm_mday, Int.sub_add_cancel, Date.yearDay]
  by_cases hleap : Leap mo.date.year ∧ 1 < mo.date.month
  · rw [if_pos hleap] at hbefore
    rw [if_pos ⟨hleap.1, by omega⟩]
    omega
  · rw [if_neg hleap] at hbefore
    rw [if_neg fun hl => hleap ⟨hl.1, by omega⟩]
    omega

/-- What `timegm` makes of the fields that its loop leaves: `years` is the year at the call. -/
theorem timegm_eq (hloop : monthsLoop (carry t) = some t') (h : t'.Shows mo)
    (hyear : 70 ≤ t'.tm_year) :
    timegm t = some
      ((((yearStart (t.tm_year - 70) + mo.date.yearDay) * 24 + mo.hour) * 60 + mo.minute) * 60
        + mo.second,
      { t' with
        tm_yday := mo.date.yearDay
        tm_wday := (yearStart (t.tm_year - 70) + mo.date.yearDay + 4).tmod 7 }) := by
  have hread := readSpm_eq (Nat.le_of_lt mo.date.month_lt)
  simp only [timegm, hloop, Option.bind_eq_bind, Option.bind_some, if_neg (Int.not_lt.mpr hyear),
    h.tm_mon, hread, h.tm_sec, h.tm_min, h.tm_hour]
  rw [← h.tm_mon, h.yearDay]

/-- A result comes from what the loop leaves, with other days of the week and of the year. -/
theorem timegm_some {ret : Int} (h : timegm t = some (ret, t')) :
    ∃ t₁ wday yday, monthsLoop (carry t) = some t₁ ∧
      t' = { t₁ with tm_wday := wday, tm_yday := yday } ∧ (t₁.tm_year < 70 → ret = -1) := by
  obtain ⟨t₁, hloop, h⟩ := Option.bind_eq_some_iff.mp h
  refine ⟨t₁, t'.tm_wday, t'.tm_yday, hloop, ?_⟩
  split at h
  case isTrue hyear =>
    obtain ⟨rfl, rfl⟩ := Prod.mk.inj (Option.some.inj h)
    exact ⟨rfl, fun _ => rfl⟩
  case isFalse hyear =>
    obtain ⟨n, hn, h⟩ := Option.bind_eq_some_iff.mp h
    obtain ⟨-, rfl⟩ := Prod.mk.inj (Option.some.inj h)
    exact ⟨rfl, fun hlt => absurd hlt hyear⟩

/-! ### There and back -/

theorem Tm.Shows.carry_eq (h : t.Shows mo) : carry t = t := by
  have hsec := mo.second_lt
  have hmin := mo.minute_lt
  have hhour := mo.hour_lt
  have hmon := mo.date.month_lt
  have h1 : carrySec t = t := if_neg (by rw [h.tm_sec]; omega)
  have h2 : carryMin t = t := if_neg (by rw [h.tm_min]; omega)
  have h3 : carryHour t = t := if_neg (by rw [h.tm_hour]; omega)
  have h4 : carryMon t = t := if_neg (by rw [h.tm_mon]; omega)
  rw [carry, h1, h2, h3, h4]

theorem Tm.Shows.monthsLoop_eq (h : t.Shows mo) : monthsLoop t = some t := by
  have hle := le_trans mo.date.day_le (monthDays_le_beforeMonth mo.date.year mo.date.month_lt)
  apply monthsLoop_stop
  rw [monthOver_eq h.tm_mon mo.date.month_lt, h.tm_mday, decide_eq_false (by omega)]

/-- `timegm` gives the seconds of a moment from 1970 on. -/
theorem Tm.Shows.timegm_eq (hshows : t'.Shows mo) (hloop : monthsLoop (carry t) = some t')
    (hyear : t'.tm_year = t.tm_year) (h1970 : 1970 ≤ mo.date.year) :
    timegm t = some (mo.seconds 1970,
      { t' with tm_wday := mo.weekDay 1970 4, tm_yday := mo.date.yearDay }) := by
  have hmo := hshows.tm_year
  have hnumber : yearStart (t.tm_year - 70) + mo.date.yearDay = mo.date.number 1970 := by
    rw [yearStart_eq (by omega), Date.number, ← hyear, hmo,
      show 1970 + (mo.date.year - 1900 - 70) = mo.date.year by omega]
  have hpos : 0 ≤ mo.date.number 1970 := by
    have hle := newYear_le h1970
    simp only [Date.number]
    omega
  rw [Libc.timegm_eq hloop hshows (by omega), hnumber, Int.tmod_eq_emod_of_nonneg (by omega),
    Int.add_comm _ 4]
  rfl

/-- `gmtime_r` gives the moment of a time, and `timegm` gives the time of that moment. -/
theorem timegm_gmtime_r (timep : Nat) :
    ∃ r mo, gmtime_r timep = some r ∧ r.Denotes mo ∧ r.tm_isdst = 0 ∧ mo.seconds 1970 = timep ∧
      timegm r = some ((timep : Int), r) := by
  obtain ⟨r, mo, hr, hmo, hdst, hsec⟩ := gmtime_r_denotes timep
  refine ⟨r, mo, hr, hmo, hdst, hsec, ?_⟩
  have h1970 : 1970 ≤ mo.date.year := Moment.epoch_le (by omega)
  have hshows := hmo.toShows
  rw [hshows.timegm_eq (hshows.carry_eq.symm ▸ hshows.monthsLoop_eq) rfl h1970, hsec,
    ← hmo.tm_wday, ← hmo.tm_yday]

/-- A 32-bit time ends in 2038, and no field of it is large. -/
theorem gmtime_r_year_le {timep : Nat} {r : Tm} (htime : timep < 2 ^ 31)
    (h : gmtime_r timep = some r) : 70 ≤ r.tm_year ∧ r.tm_year ≤ 138 := by
  obtain ⟨r', mo, hr, hmo, -, hsec⟩ := gmtime_r_denotes timep
  obtain rfl := Option.some.inj (h.symm.trans hr)
  have h1970 : 1970 ≤ mo.date.year := Moment.epoch_le (by omega)
  rw [hmo.tm_year]
  refine ⟨by omega, ?_⟩
  by_contra hlt
  have hle := newYear_le (show 2039 ≤ mo.date.year by omega)
  have hdays : newYear 2039 - newYear 1970 = 25202 := by decide
  simp only [Moment.seconds, Date.number] at hsec
  omega

/-! ### The carries -/

/-- The fields that `timegm` can carry are not negative. -/
structure Tm.Nonneg (t : Tm) : Prop where
  tm_sec : 0 ≤ t.tm_sec
  tm_min : 0 ≤ t.tm_min
  tm_hour : 0 ≤ t.tm_hour
  tm_mday : 0 ≤ t.tm_mday
  tm_mon : 0 ≤ t.tm_mon

/-- The second that the fields stand for when each carries into the next. -/
def Tm.seconds (t : Tm) : Int :=
  let year := t.tm_year + 1900 + t.tm_mon / 12
  let month := (t.tm_mon % 12).toNat
  let day := newYear year - newYear 1970 + beforeMonth year month + (t.tm_mday - 1)
  ((day * 24 + t.tm_hour) * 60 + t.tm_min) * 60 + t.tm_sec

theorem carrySec_eq (hpos : 0 ≤ t.tm_sec) (hne : t.tm_sec ≠ 60) :
    carrySec t = { t with tm_min := t.tm_min + t.tm_sec / 60, tm_sec := t.tm_sec % 60 } := by
  rw [carrySec, Int.tdiv_eq_ediv_of_nonneg hpos, Int.tmod_eq_emod_of_nonneg hpos]
  split
  · rfl
  · have hdiv : t.tm_sec / 60 = 0 := by omega
    have hmod : t.tm_sec % 60 = t.tm_sec := by omega
    rw [hdiv, hmod, Int.add_zero]

theorem carryMin_eq (hpos : 0 ≤ t.tm_min) (hne : t.tm_min ≠ 60) :
    carryMin t = { t with tm_hour := t.tm_hour + t.tm_min / 60, tm_min := t.tm_min % 60 } := by
  rw [carryMin, Int.tdiv_eq_ediv_of_nonneg hpos, Int.tmod_eq_emod_of_nonneg hpos]
  split
  · rfl
  · have hdiv : t.tm_min / 60 = 0 := by omega
    have hmod : t.tm_min % 60 = t.tm_min := by omega
    rw [hdiv, hmod, Int.add_zero]

theorem carryHour_eq (hpos : 0 ≤ t.tm_hour) (hne : t.tm_hour ≠ 24) :
    carryHour t = { t with tm_mday := t.tm_mday + t.tm_hour / 24, tm_hour := t.tm_hour % 24 } := by
  rw [carryHour, Int.tdiv_eq_ediv_of_nonneg hpos, Int.tmod_eq_emod_of_nonneg hpos]
  split
  · rfl
  · have hdiv : t.tm_hour / 24 = 0 := by omega
    have hmod : t.tm_hour % 24 = t.tm_hour := by omega
    rw [hdiv, hmod, Int.add_zero]

/-! ### What the loop takes away -/

/-- The days that the loop takes away on its way from January to month `m`. -/
def taken (y : Int) : Nat → Int
  | 0 => 0
  | m + 1 => taken y m + beforeMonth 1 m + if Leap y ∧ m = 1 then 1 else 0

theorem taken_march (y : Int) : taken y (2 + 1) = taken y 2 + 59 := by
  simp [taken, beforeMonth, monthDays, show ¬ Leap 1 by decide]

/-- From one month to a later one the loop takes away as many days as there are between them, or not:
it does from January to April only. -/
theorem taken_agrees {y : Int} {m m' : Nat} (hlt : m < m') (hm' : m' < 12)
    (h : beforeMonth y m' - taken y m' = beforeMonth y m - taken y m) : m' = 3 := by
  have hgap (m : Nat) (hm : m < 12) :
      beforeMonth y m - taken y m = beforeMonth 1 m - taken 1 m := by
    have hone : ¬ Leap 1 := by decide
    by_cases hleap : Leap y
    · interval_cases m <;> simp [beforeMonth, monthDays, taken, hleap, hone]
    · interval_cases m <;> simp [beforeMonth, monthDays, taken, hleap, hone]
  have hdecide : ∀ a b : Fin 12, a < b →
      (beforeMonth 1 b - taken 1 b = beforeMonth 1 a - taken 1 a) → b = 3 := by decide
  rw [hgap m (by omega), hgap m' hm'] at h
  exact congrArg Fin.val (hdecide ⟨m, by omega⟩ ⟨m', hm'⟩ hlt h)

/-- What the loop keeps and what it does in a year. -/
structure Months (t t' : Tm) (m m' : Nat) : Prop where
  tm_sec : t'.tm_sec = t.tm_sec
  tm_min : t'.tm_min = t.tm_min
  tm_hour : t'.tm_hour = t.tm_hour
  tm_mon : t'.tm_mon = m'
  month_lt : m' < 12
  tm_year : t.tm_year ≤ t'.tm_year
  same : t'.tm_year = t.tm_year → t' = t ∨ m < m' ∧ (m' = 3 → 32 ≤ t'.tm_mday) ∧
    t'.tm_mday + taken (t.tm_year + 1900) m' = t.tm_mday + taken (t.tm_year + 1900) m

theorem monthTurn_eq {m : Nat} (hm : t.tm_mon = m) (hlt : m < 11) :
    monthTurn t = some { t with
      tm_mday := t.tm_mday + taken (t.tm_year + 1900) m - taken (t.tm_year + 1900) (m + 1)
      tm_mon := (m + 1 : Nat) } := by
  have hread := readSpm_eq (show m ≤ 12 by omega)
  simp only [monthTurn, hm, hread, Option.bind_eq_bind, Option.bind_some, isleap_iff, taken]
  rw [if_neg (by omega)]
  by_cases hfeb : Leap (t.tm_year + 1900) ∧ m = 1
  · rw [if_pos hfeb, if_pos ⟨by omega, hfeb.1⟩]
    congr 2
    omega
  · rw [if_neg hfeb, if_neg fun h => hfeb ⟨h.2, by omega⟩]
    congr 2
    omega

theorem monthTurn_december (hm : t.tm_mon = 11) :
    monthTurn t = some { t with
      tm_mday := t.tm_mday - 334, tm_mon := 0, tm_year := t.tm_year + 1 } := by
  simp [monthTurn, hm, show readSpm 11 = some 334 from by decide]

/-- The loop ends for a month of the table. -/
theorem monthsLoop_months {m : Nat} (hm : t.tm_mon = m) (hlt : m < 12) :
    ∃ t' m', monthsLoop t = some t' ∧ Months t t' m m' := by
  induction t using monthsLoop.induct generalizing m with
  | case1 t hnone =>
    rw [monthOver_eq hm hlt] at hnone
    cases hnone
  | case2 t hstop =>
    exact ⟨t, m, monthsLoop_stop hstop, rfl, rfl, rfl, hm, hlt, le_refl _, fun _ => .inl rfl⟩
  | case3 t hmore hnone =>
    by_cases hdec : m = 11
    · rw [monthTurn_december (by omega)] at hnone
      cases hnone
    · rw [monthTurn_eq hm (by omega)] at hnone
      cases hnone
  | case4 t hmore t₁ hturn ih =>
    rw [monthsLoop_next hmore hturn]
    by_cases hdec : m = 11
    · rw [monthTurn_december (by omega)] at hturn
      obtain rfl := Option.some.inj hturn
      obtain ⟨t', m', hloop, hrest⟩ := ih (m := 0) rfl (by decide)
      have hyear := hrest.tm_year
      simp only at hyear
      exact ⟨t', m', hloop, hrest.tm_sec, hrest.tm_min, hrest.tm_hour, hrest.tm_mon,
        hrest.month_lt, by omega, fun h => by omega⟩
    · rw [monthOver_eq hm hlt] at hmore
      have hmany := of_decide_eq_true (Option.some.inj hmore)
      rw [monthTurn_eq hm (by omega)] at hturn
      obtain rfl := Option.some.inj hturn
      obtain ⟨t', m', hloop, hrest⟩ := ih (m := m + 1) rfl (by omega)
      refine ⟨t', m', hloop, hrest.tm_sec, hrest.tm_min, hrest.tm_hour, hrest.tm_mon,
        hrest.month_lt, hrest.tm_year, fun h => .inr ?_⟩
      rcases hrest.same h with rfl | ⟨hmonth, hapril, hsum⟩
      · have hmon := hrest.tm_mon
        simp only at hmon ⊢
        have hm' : m' = m + 1 := by omega
        subst hm'
        refine ⟨by omega, fun h3 => ?_, by omega⟩
        obtain rfl : m = 2 := by omega
        have hmarch : beforeMonth 1 (2 + 1) = 90 := by decide
        have htaken := taken_march (t.tm_year + 1900)
        omega
      · simp only at hsum
        exact ⟨by omega, hapril, by omega⟩

/-! ### When timegm normalizes -/

/-- `timegm` gives the second that the fields stand for, and leaves the moment of it in them. -/
def TimegmContract (t : Tm) : Prop :=
  ∃ t' mo, timegm t = some (t.seconds, t') ∧ t'.Denotes mo ∧ mo.seconds 1970 = t.seconds

/-- No field is exactly at its limit when its carry comes up, the month is in the year, and the day is
in the month. -/
structure Fits (t : Tm) : Prop where
  tm_sec : t.tm_sec ≠ 60
  tm_min : t.tm_min + t.tm_sec / 60 ≠ 60
  tm_hour : t.tm_hour + (t.tm_min + t.tm_sec / 60) / 60 ≠ 24
  tm_mon : t.tm_mon ≤ 11
  day_pos : 1 ≤ t.tm_mday + (t.tm_hour + (t.tm_min + t.tm_sec / 60) / 60) / 24
  day_le : t.tm_mday + (t.tm_hour + (t.tm_min + t.tm_sec / 60) / 60) / 24 ≤
    monthDays (t.tm_year + 1900) t.tm_mon.toNat

/-- The fields after their carries into the days. -/
def Tm.carried (t : Tm) : Tm :=
  { t with
    tm_sec := t.tm_sec % 60
    tm_min := (t.tm_min + t.tm_sec / 60) % 60
    tm_hour := (t.tm_hour + (t.tm_min + t.tm_sec / 60) / 60) % 24
    tm_mday := t.tm_mday + (t.tm_hour + (t.tm_min + t.tm_sec / 60) / 60) / 24 }

theorem carry_eq (h : t.Nonneg) (hsec : t.tm_sec ≠ 60) (hmin : t.tm_min + t.tm_sec / 60 ≠ 60)
    (hhour : t.tm_hour + (t.tm_min + t.tm_sec / 60) / 60 ≠ 24) : carry t = carryMon t.carried := by
  have hsec0 := h.tm_sec
  have hmin0 := h.tm_min
  have hhour0 := h.tm_hour
  rw [carry, carrySec_eq hsec0 hsec, carryMin_eq (by simp only; omega) hmin,
    carryHour_eq (by simp only; omega) hhour]
  rfl

theorem seconds_carried (t : Tm) : t.carried.seconds = t.seconds := by
  simp only [Tm.seconds, Tm.carried]
  omega

/-- A date and a time of day stand for their second. -/
theorem Tm.Shows.seconds_eq (h : t.Shows mo) : t.seconds = mo.seconds 1970 := by
  have hmon := mo.date.month_lt
  have hpos := mo.date.day_pos
  have hdiv : (mo.date.month : Int) / 12 = 0 := by omega
  have hmod : ((mo.date.month : Int) % 12).toNat = mo.date.month := by omega
  simp only [Tm.seconds, h.tm_sec, h.tm_min, h.tm_hour, h.tm_mday, h.tm_mon, h.tm_year, hdiv, hmod,
    Int.sub_add_cancel, Int.add_zero, Moment.seconds, Date.number, Date.yearDay]
  omega

/-- Where the fields fit, the carries leave a date and a time of day. -/
theorem Fits.contract (h : t.Nonneg) (h1970 : 0 ≤ t.seconds) (hfits : Fits t) :
    TimegmContract t := by
  have hmon := h.tm_mon
  have hle := hfits.tm_mon
  have hpos := hfits.day_pos
  have hday := hfits.day_le
  have hcarry : carry t = t.carried := by
    rw [carry_eq h hfits.tm_sec hfits.tm_min hfits.tm_hour]
    exact if_neg (by simp only [Tm.carried]; omega)
  have hsec := h.tm_sec
  have hmin := h.tm_min
  have hhour := h.tm_hour
  let d : Date := ⟨t.tm_year + 1900, t.tm_mon.toNat, t.carried.tm_mday.toNat, by omega,
    by simp only [Tm.carried]; omega, by simp only [Tm.carried]; omega⟩
  let mo : Moment := ⟨d, t.carried.tm_hour.toNat, t.carried.tm_min.toNat, t.carried.tm_sec.toNat,
    by simp only [Tm.carried]; omega, by simp only [Tm.carried]; omega,
    by simp only [Tm.carried]; omega⟩
  have hshows : t.carried.Shows mo := by
    constructor <;> simp only [Tm.carried, mo, d] <;> omega
  have hseconds : mo.seconds 1970 = t.seconds := by
    rw [← hshows.seconds_eq, seconds_carried]
  have hloop : monthsLoop (carry t) = some t.carried := by
    rw [hcarry, hshows.monthsLoop_eq]
  have htimegm := hshows.timegm_eq hloop rfl (Moment.epoch_le (by rw [hseconds]; exact h1970))
  rw [hseconds] at htimegm
  exact ⟨_, mo, htimegm, ⟨⟨hshows.tm_sec, hshows.tm_min, hshows.tm_hour, hshows.tm_mday,
    hshows.tm_mon, hshows.tm_year⟩, rfl, rfl⟩, hseconds⟩

theorem carryMon_clock (t : Tm) : (carryMon t).tm_sec = t.tm_sec ∧
    (carryMon t).tm_min = t.tm_min ∧ (carryMon t).tm_hour = t.tm_hour := by
  rw [carryMon]
  split <;> exact ⟨rfl, rfl, rfl⟩

theorem carryHour_clock (t : Tm) : (carryHour t).tm_sec = t.tm_sec ∧
    (carryHour t).tm_min = t.tm_min := by
  rw [carryHour]
  split <;> exact ⟨rfl, rfl⟩

theorem carryHour_mon (t : Tm) : (carryHour (carryMin (carrySec t))).tm_mon = t.tm_mon := by
  simp only [carryHour, carryMin, carrySec]
  split_ifs <;> rfl

theorem carryMin_clock (t : Tm) : (carryMin t).tm_sec = t.tm_sec := by
  rw [carryMin]
  split <;> rfl

/-- A clock in range after the carries: no field was at its limit when its carry came up. -/
theorem limits_of_clock (h : t.Nonneg) (hs : (carry t).tm_sec < 60) (hm : (carry t).tm_min < 60)
    (hh : (carry t).tm_hour < 24) : t.tm_sec ≠ 60 ∧ t.tm_min + t.tm_sec / 60 ≠ 60 ∧
      t.tm_hour + (t.tm_min + t.tm_sec / 60) / 60 ≠ 24 := by
  have hsec0 := h.tm_sec
  have hmin0 := h.tm_min
  simp only [carry, (carryMon_clock _).1, (carryMon_clock _).2, (carryHour_clock _).1,
    (carryHour_clock _).2, carryMin_clock] at hs hm hh
  have hsec : t.tm_sec ≠ 60 := by
    intro h60
    rw [carrySec, if_neg (by omega)] at hs
    omega
  rw [carrySec_eq hsec0 hsec] at hm hh
  have hmin : t.tm_min + t.tm_sec / 60 ≠ 60 := by
    intro h60
    rw [carryMin, if_neg (by simp only; omega)] at hm
    simp only at hm
    omega
  rw [carryMin_eq (by simp only; omega) hmin] at hh
  refine ⟨hsec, hmin, fun h24 => ?_⟩
  rw [carryHour, if_neg (by simp only; omega)] at hh
  simp only at hh
  omega

/-- Only a month of exactly 12 is not carried into the table. -/
theorem carryMon_month (hpos : 0 ≤ t.tm_mon) (hne : t.tm_mon ≠ 12) :
    ∃ m : Nat, (carryMon t).tm_mon = m ∧ m < 12 := by
  rw [carryMon]
  by_cases hmon : t.tm_mon > 12
  · rw [if_pos hmon, Int.tmod_eq_emod_of_nonneg hpos]
    exact ⟨(t.tm_mon % 12).toNat, by simp only; omega, by omega⟩
  · rw [if_neg hmon]
    exact ⟨t.tm_mon.toNat, by omega, by omega⟩

/-- That month makes the loop read past the end of the table. -/
theorem monthsLoop_twelve (h : t.tm_mon = 12) : monthsLoop (carryMon t) = none := by
  have hread : readSpm (1 + t.tm_mon) = none := by
    rw [h]
    decide
  have hnone : monthOver t = none := by
    rw [monthOver, hread]
    rfl
  rw [carryMon, if_neg (by omega), monthsLoop]
  split <;> simp_all

theorem monthsLoop_carryMon (hpos : 0 ≤ t.tm_mon) (hloop : monthsLoop (carryMon t) = some t') :
    ∃ m m', (carryMon t).tm_mon = (m : Nat) ∧ m < 12 ∧ Months (carryMon t) t' m m' := by
  have hne : t.tm_mon ≠ 12 := by
    intro h
    rw [monthsLoop_twelve h] at hloop
    cases hloop
  obtain ⟨m, hm, hlt⟩ := carryMon_month hpos hne
  obtain ⟨t₁, m', hloop₁, hmonths⟩ := monthsLoop_months hm hlt
  obtain rfl := Option.some.inj (hloop.symm.trans hloop₁)
  exact ⟨m, m', hm, hlt, hmonths⟩

/-- From a month in the table the fields come out with one, and with the clock of the carries. -/
theorem timegm_of_month {m : Nat} (hm : (carry t).tm_mon = m) (hlt : m < 12) :
    ∃ ret t' m', timegm t = some (ret, t') ∧ t'.tm_sec = (carry t).tm_sec ∧
      t'.tm_min = (carry t).tm_min ∧ t'.tm_hour = (carry t).tm_hour ∧ t'.tm_mon = (m' : Nat) ∧
      m' < 12 := by
  obtain ⟨t₁, m', hloop, h⟩ := monthsLoop_months hm hlt
  have hread := readSpm_eq (Nat.le_of_lt h.month_lt)
  simp only [timegm, hloop, h.tm_mon, hread, Option.bind_eq_bind, Option.bind_some]
  split
  · exact ⟨_, _, m', rfl, h.tm_sec, h.tm_min, h.tm_hour, h.tm_mon, h.month_lt⟩
  · exact ⟨_, _, m', rfl, h.tm_sec, h.tm_min, h.tm_hour, rfl, h.month_lt⟩

/-- `timegm` reads outside of the table for that month, and for no other. -/
theorem timegm_eq_none (hpos : 0 ≤ t.tm_mon) : timegm t = none ↔ t.tm_mon = 12 := by
  have hmon := carryHour_mon t
  constructor
  · intro hnone
    by_contra hne
    obtain ⟨m, hm, hlt⟩ := carryMon_month (hmon ▸ hpos) (hmon ▸ hne)
    obtain ⟨ret, t', m', hsome, -⟩ := timegm_of_month hm hlt
    rw [hsome] at hnone
    cases hnone
  · intro h
    rw [timegm, carry, monthsLoop_twelve (hmon.trans h)]
    rfl

/-- A turn of the loop ends in a day that its month does not have, or on a wrong day. -/
theorem Months.eq_of_seconds {m m' : Nat} (h : Months t t' m m') (hm : t.tm_mon = m) (hlt : m < 12)
    (hyear : t'.tm_year = t.tm_year) (hshows : t'.Shows mo) (hsec : mo.seconds 1970 = t.seconds) :
    t' = t := by
  rcases h.same hyear with heq | ⟨hlate, hapril, hsum⟩
  · exact heq
  · exfalso
    have hlt' := h.month_lt
    have hdiv : (m : Int) / 12 = 0 ∧ (m' : Int) / 12 = 0 := by omega
    have hmod : ((m : Int) % 12).toNat = m ∧ ((m' : Int) % 12).toNat = m' := by omega
    rw [← hshows.seconds_eq] at hsec
    simp only [Tm.seconds, hm, h.tm_mon, h.tm_sec, h.tm_min, h.tm_hour, hyear, hdiv.1, hdiv.2,
      hmod.1, hmod.2, Int.add_zero] at hsec
    have h3 := taken_agrees (y := t.tm_year + 1900) hlate hlt' (by omega)
    subst h3
    -- April has no 32nd day.
    have hmon : mo.date.month = 3 := by
      have hmon := h.tm_mon.symm.trans hshows.tm_mon
      omega
    have hday := hshows.tm_mday
    have hle := mo.date.day_le
    have h32 := hapril rfl
    rw [hmon, show monthDays mo.date.year 3 = 30 from rfl] at hle
    omega

/-- The fields of a moment that the loop leaves are the carried ones, in the year of the call. -/
theorem carried_of_contract (h : t.Nonneg) (h1970 : 0 ≤ t.seconds) (hc : TimegmContract t) :
    t.tm_sec ≠ 60 ∧ t.tm_min + t.tm_sec / 60 ≠ 60 ∧
    t.tm_hour + (t.tm_min + t.tm_sec / 60) / 60 ≠ 24 ∧ t.tm_mon ≤ 11 ∧
    ∃ mo, t.carried.Shows mo := by
  obtain ⟨t', mo, htimegm, hden, hsec⟩ := hc
  obtain ⟨t₁, wday, yday, hloop, rfl, hearly⟩ := timegm_some htimegm
  have hshows : t₁.Shows mo :=
    ⟨hden.tm_sec, hden.tm_min, hden.tm_hour, hden.tm_mday, hden.tm_mon, hden.tm_year⟩
  have hyear : 70 ≤ t₁.tm_year := by
    by_contra hlt
    have hret := hearly (by omega)
    omega
  -- The seconds count the year of the call, and the fields the year after the carries.
  have hsame : t₁.tm_year ≤ t.tm_year := by
    by_contra hlt
    have hstart := yearStart_lt (show t.tm_year - 70 < t₁.tm_year - 70 by omega) (by omega)
    have hfields := yearStart_eq (show 0 ≤ t₁.tm_year - 70 by omega)
    rw [show 1970 + (t₁.tm_year - 70) = mo.date.year by rw [hshows.tm_year]; omega] at hfields
    rw [timegm_eq hloop hshows hyear] at htimegm
    have hret := (Prod.mk.inj (Option.some.inj htimegm)).1
    rw [← hsec, Moment.seconds, Date.number] at hret
    omega
  have hpos : 0 ≤ (carryHour (carryMin (carrySec t))).tm_mon := (carryHour_mon t).symm ▸ h.tm_mon
  obtain ⟨m, m', hm, hlt, hmonths⟩ := monthsLoop_carryMon hpos hloop
  have hclock : (carry t).tm_sec < 60 ∧ (carry t).tm_min < 60 ∧ (carry t).tm_hour < 24 := by
    have hsec60 := mo.second_lt
    have hmin60 := mo.minute_lt
    have hhour24 := mo.hour_lt
    rw [carry, ← hmonths.tm_sec, ← hmonths.tm_min, ← hmonths.tm_hour, hshows.tm_sec,
      hshows.tm_min, hshows.tm_hour]
    omega
  obtain ⟨hsec60, hmin60, hhour24⟩ := limits_of_clock h hclock.1 hclock.2.1 hclock.2.2
  refine ⟨hsec60, hmin60, hhour24, ?_⟩
  have hcarry := carry_eq h hsec60 hmin60 hhour24
  rw [← carry, hcarry] at hm hmonths
  have hmon := h.tm_mon
  have hle := hmonths.tm_year
  have hmany : ¬ t.carried.tm_mon > 12 := by
    intro hlarge
    rw [carryMon, if_pos hlarge, Int.tdiv_eq_ediv_of_nonneg (by simp only [Tm.carried]; omega)] at hle
    simp only [Tm.carried] at hle hlarge
    omega
  rw [carryMon, if_neg hmany] at hm hmonths
  have hmon11 : t.tm_mon ≤ 11 := by
    simp only [Tm.carried] at hm
    omega
  have hcarried := hmonths.eq_of_seconds hm hlt (le_antisymm hsame hmonths.tm_year) hshows
    (by rw [hsec, seconds_carried])
  exact ⟨hmon11, mo, hcarried ▸ hshows⟩

/-- `timegm` normalizes the fields where the carries alone do it: its tests leave out each limit itself,
and its loop takes days off by a table that sums them up. -/
theorem timegm_normalizes (h : t.Nonneg) (h1970 : 0 ≤ t.seconds) :
    TimegmContract t ↔ Fits t := by
  refine ⟨fun hc => ?_, Fits.contract h h1970⟩
  obtain ⟨hsec, hmin, hhour, hmon, mo, hshows⟩ := carried_of_contract h h1970 hc
  have hmonth := hshows.tm_mon
  have hyear := hshows.tm_year
  have hday := hshows.tm_mday
  have hpos := mo.date.day_pos
  have hle := mo.date.day_le
  simp only [Tm.carried] at hmonth hyear hday
  have hm : t.tm_mon.toNat = mo.date.month := by omega
  have hy : t.tm_year + 1900 = mo.date.year := by omega
  exact ⟨hsec, hmin, hhour, hmon, by omega, by rw [hm, hy]; omega⟩

/-- The 11th of February 2021, a minute and a quarter after noon. -/
def afterNoon : Tm := ⟨75, 0, 12, 11, 1, 121, 0, 0, 0⟩

theorem timegm_normalizes_afterNoon : TimegmContract afterNoon ↔ Fits afterNoon :=
  timegm_normalizes ⟨by decide, by decide, by decide, by decide, by decide⟩ (by decide)

/-- The first of February 1970, as the 32nd of January. -/
def january32 : Tm := ⟨0, 0, 0, 32, 0, 70, 0, 0, 0⟩

/-- The loop makes the 32nd of February of it. -/
theorem january32_lost :
    january32.Nonneg ∧ january32.seconds = 31 * 86400 ∧
    timegm january32 = some (62 * 86400, ⟨0, 0, 0, 32, 1, 70, 3, 62, 0⟩) ∧
    ¬ TimegmContract january32 := by
  have hloop : monthsLoop january32 = some { january32 with tm_mon := 1 } := by
    have hturn : monthTurn january32 = some { january32 with tm_mon := 1 } := by decide
    rw [monthsLoop_next (by decide) hturn]
    exact monthsLoop_stop (by decide)
  have htimegm : timegm january32 = some (62 * 86400, ⟨0, 0, 0, 32, 1, 70, 3, 62, 0⟩) := by
    rw [timegm, show carry january32 = january32 from by decide, hloop]
    decide
  refine ⟨⟨by decide, by decide, by decide, by decide, by decide⟩, by decide, htimegm, ?_⟩
  rintro ⟨t', mo, h, -⟩
  rw [htimegm] at h
  have hret : (62 * 86400 : Int) = january32.seconds := (Prod.mk.inj (Option.some.inj h)).1
  exact absurd hret (by decide)

end Ab32Vg1.Libc
