import Ab32Vg1.Drivers.Alarm
import Mathlib.Data.List.MinMax

/-! Which alarm is programmed: `alarm_update` takes the first of the started alarms that come next,
and `rt_alarm_start` compares the new alarm with the current one. -/

namespace Ab32Vg1.Drivers

open Kernel ProofKit Libc

/-! ### Times of day -/

/-- A valid time of day. -/
structure Clock (w : Tm) : Prop where
  sec_nonneg : 0 ≤ w.tm_sec
  sec_lt : w.tm_sec < 60
  min_nonneg : 0 ≤ w.tm_min
  min_lt : w.tm_min < 60
  hour_nonneg : 0 ≤ w.tm_hour
  hour_lt : w.tm_hour < 24

/-- The second of the day. -/
def secOfDay (w : Tm) : Int := w.tm_sec + w.tm_min * 60 + w.tm_hour * 3600

variable {w now : Tm} {c : Container} {i : Nat}

theorem Clock.secOfDay_lt (h : Clock w) : 0 ≤ secOfDay w ∧ secOfDay w < 86400 := by
  have hs := h.sec_nonneg
  have hs' := h.sec_lt
  have hm := h.min_nonneg
  have hm' := h.min_lt
  have hh := h.hour_nonneg
  have hh' := h.hour_lt
  simp only [secOfDay]
  omega

theorem toInt_ofInt {x : Int} (hpos : 0 ≤ x) (hlt : x < 86400) : (BitVec.ofInt 32 x).toInt = x := by
  rw [BitVec.toInt_ofInt]
  exact Int.bmod_eq_of_le (by omega) (by omega)

theorem Clock.mkdaysec (h : Clock w) : (alarm_mkdaysec w).toInt = secOfDay w :=
  toInt_ofInt h.secOfDay_lt.1 h.secOfDay_lt.2

theorem Clock.bumpHour (h : Clock w) : Clock (bumpHour w) := by
  have hh := h.hour_nonneg
  have hh' := h.hour_lt
  simp only [Drivers.bumpHour]
  split
  · exact ⟨h.sec_nonneg, h.sec_lt, h.min_nonneg, h.min_lt, by simp, by simp⟩
  · exact ⟨h.sec_nonneg, h.sec_lt, h.min_nonneg, h.min_lt, by simp only; omega, by simp only; omega⟩

theorem Clock.bumpMin (h : Clock w) : Clock (bumpMin w) := by
  have hm := h.min_nonneg
  have hm' := h.min_lt
  simp only [Drivers.bumpMin]
  split
  · exact Clock.bumpHour ⟨h.sec_nonneg, h.sec_lt, by simp, by simp, h.hour_nonneg, h.hour_lt⟩
  · exact ⟨h.sec_nonneg, h.sec_lt, by simp only; omega, by simp only; omega, h.hour_nonneg, h.hour_lt⟩

theorem Clock.bumpSec (h : Clock w) : Clock (bumpSec w) := by
  have hs := h.sec_nonneg
  have hs' := h.sec_lt
  simp only [Drivers.bumpSec]
  split
  · exact Clock.bumpMin ⟨by simp, by simp, h.min_nonneg, h.min_lt, h.hour_nonneg, h.hour_lt⟩
  · exact ⟨by simp only; omega, by simp only; omega, h.min_nonneg, h.min_lt, h.hour_nonneg, h.hour_lt⟩

/-- `timegm` leaves a valid time of day, and a month of the year. -/
theorem Clock.timegm (h : Clock w) (hmon : 0 ≤ w.tm_mon ∧ w.tm_mon ≤ 11) :
    ∃ ret w', timegm w = some (ret, w') ∧ Clock w' ∧ 0 ≤ w'.tm_mon ∧ w'.tm_mon ≤ 11 := by
  have hs := h.sec_lt
  have hm := h.min_lt
  have hh := h.hour_lt
  have h1 : carrySec w = w := if_neg (by omega)
  have h2 : carryMin w = w := if_neg (by omega)
  have h3 : carryHour w = w := if_neg (by omega)
  have h4 : carryMon w = w := if_neg (by omega)
  have hcarry : carry w = w := by rw [carry, h1, h2, h3, h4]
  obtain ⟨ret, w', m', heq, hsec, hmin, hhour, hm', hlt⟩ :=
    timegm_of_month (t := w) (m := w.tm_mon.toNat) (by rw [hcarry]; omega) (by omega)
  rw [hcarry] at hsec hmin hhour
  exact ⟨ret, w', heq, ⟨hsec ▸ h.sec_nonneg, hsec ▸ h.sec_lt, hmin ▸ h.min_nonneg, hmin ▸ h.min_lt,
    hhour ▸ h.hour_nonneg, hhour ▸ h.hour_lt⟩, by omega, by omega⟩

/-- The time of day that `gmtime_r` gives. -/
theorem gmtime_r_clock (time : Nat) :
    ∃ now, gmtime_r time = some now ∧ Clock now ∧ secOfDay now = time % 86400 ∧
      timegm now = some ((time : Int), now) := by
  obtain ⟨now, mo, hnow, hmo, -, htime, hback⟩ := timegm_gmtime_r time
  have hs := hmo.tm_sec
  have hm := hmo.tm_min
  have hh := hmo.tm_hour
  have hs' := mo.second_lt
  have hm' := mo.minute_lt
  have hh' := mo.hour_lt
  simp only [Calendar.Moment.seconds] at htime
  refine ⟨now, hnow, ⟨by omega, by omega, by omega, by omega, by omega, by omega⟩, ?_, hback⟩
  simp only [secOfDay]
  omega

/-- A valid time of day, and for an alarm that rings once a month of the year. -/
structure RtAlarm.Valid (a : RtAlarm) : Prop where
  clock : Clock a.wktime
  month : a.mode = RT_ALARM_ONESHOT → 0 ≤ a.wktime.tm_mon ∧ a.wktime.tm_mon ≤ 11

/-! ### Giving an alarm to the device -/

namespace Container

/-- The device has the alarm at `i`. -/
def given (c : Container) (i : Nat) : Container :=
  { c with
    rtc := { c.rtc with RTCALM := if (c.alarm i).started then 1 else 0, shift := [] }
    programmed := if (c.alarm i).started then some i else none }

/-- The device takes every alarm, and a valid time comes back from it. -/
theorem alarm_set_eq (h : Clock (c.alarm i).wktime) : c.alarm_set i = (c.given i, RT_EOK) := by
  have hsec := toInt_ofInt h.sec_nonneg (by have := h.sec_lt; omega)
  have hmin := toInt_ofInt h.min_nonneg (by have := h.min_lt; omega)
  have hhour := toInt_ofInt h.hour_nonneg (by have := h.hour_lt; omega)
  have hput : c.put i (c.alarm i) = c := by
    simp only [put, Function.update_eq_self]
  have hset : (c.alarm i).request.alarm_set c.rtc c.stack 0 =
      (⟨c.rtc.RTCCNT, if (c.alarm i).started then 1 else 0, []⟩, (c.alarm i).request, RT_EOK) := by
    by_cases hstart : (c.alarm i).request.started
    · simp only [Alarm.alarm_set_started hstart, RtAlarm.started, hstart, decide_true, if_true]
    · simp only [Alarm.alarm_set_stopped hstart, RtAlarm.started, hstart, decide_false,
        Bool.false_eq_true, if_false]
  simp only [alarm_set, hset, if_true]
  simp only [RtAlarm.request, hsec, hmin, hhour, hput, given]

/-! ### The next alarm -/

/-- The second of the day of the alarm at `i`. -/
def day (c : Container) (i : Nat) : Int := secOfDay (c.alarm i).wktime

/-- The seconds until an alarm is due, from 1 to a whole day. -/
def delay (c : Container) (sec_now : Int) (i : Nat) : Int := (c.day i - sec_now - 1) % 86400 + 1

/-- The started alarms, in the order of the list. -/
def startedList (c : Container) : List Nat := c.head.filter fun i => (c.alarm i).started

/-- The alarm of `l` that comes next, the first one if there are several. -/
def soonest (c : Container) (sec_now : Int) (l : List Nat) : Option Nat :=
  @List.argmin Nat Int Int.instLinearOrder.toPreorder inferInstance (c.delay sec_now) l

/-- The started alarm that comes next, the first one of the list if there are several. -/
def next (c : Container) (sec_now : Int) : Option Nat := c.soonest sec_now c.startedList

variable {sec_now : Int} {l : List Nat} {s : Choice} {m : Nat}

theorem delay_later (h : Clock (c.alarm i).wktime) (hnow : 0 ≤ sec_now) (hlt : sec_now < c.day i) :
    c.delay sec_now i = c.day i - sec_now := by
  have hday : c.day i < 86400 := h.secOfDay_lt.2
  simp only [delay]
  omega

theorem delay_earlier (h : Clock (c.alarm i).wktime) (hnow : sec_now < 86400)
    (hlt : c.day i < sec_now) : c.delay sec_now i = c.day i - sec_now + 86400 := by
  have hday : 0 ≤ c.day i := h.secOfDay_lt.1
  simp only [delay]
  omega

theorem delay_now (h : c.day i = sec_now) : c.delay sec_now i = 86400 := by
  simp only [delay]
  omega

/-- What the accumulators of `alarm_update` hold after the alarms of `l`. -/
inductive Seen (c : Container) (sec_now : Int) (l : List Nat) (s : Choice) : Prop
  | next (i : Nat) : s.alm_next = some i →
      c.soonest sec_now (l.filter fun i => (c.alarm i).started) = some i →
      s.sec_next = c.day i - sec_now → 0 < s.sec_next → s.sec_next < 24 * 3600 → Seen c sec_now l s
  | prev (i : Nat) : s.sec_next = 24 * 3600 → s.alm_prev = some i →
      c.soonest sec_now (l.filter fun i => (c.alarm i).started) = some i →
      s.sec_prev = c.day i - sec_now → s.sec_prev < 0 → Seen c sec_now l s
  | now : s.sec_next = 24 * 3600 → s.sec_prev = 0 →
      (∀ i ∈ l, (c.alarm i).started → c.day i = sec_now) → Seen c sec_now l s

theorem argmin_concat_first {α β : Type} [LinearOrder β] {f : α → β} {l : List α} {a : α}
    (h : ∀ m ∈ l, f a < f m) : (l ++ [a]).argmin f = some a := by
  rw [List.argmin_concat]
  cases hm : l.argmin f with
  | none => rfl
  | some m => exact if_pos (h m (List.argmin_mem hm))

theorem argmin_concat_take {α β : Type} [LinearOrder β] {f : α → β} {l : List α} {a m : α}
    (hm : l.argmin f = some m) (h : f a < f m) : (l ++ [a]).argmin f = some a := by
  rw [List.argmin_concat, hm]
  exact if_pos h

theorem argmin_concat_keep {α β : Type} [LinearOrder β] {f : α → β} {l : List α} {a m : α}
    (hm : l.argmin f = some m) (h : f m ≤ f a) : (l ++ [a]).argmin f = some m := by
  rw [List.argmin_concat, hm]
  exact if_neg (not_lt.mpr h)

theorem soonest_mem (h : c.soonest sec_now l = some m) : m ∈ l :=
  @List.argmin_mem Nat Int Int.instLinearOrder.toPreorder _ _ _ _ h

theorem soonest_le (h : c.soonest sec_now l = some m) {j : Nat} (hj : j ∈ l) :
    c.delay sec_now m ≤ c.delay sec_now j :=
  @List.le_of_mem_argmin Nat Int Int.instLinearOrder _ _ _ _ hj h

/-- An alarm behind the list comes first, -/
theorem soonest_first (h : ∀ m ∈ l, c.delay sec_now i < c.delay sec_now m) :
    c.soonest sec_now (l ++ [i]) = some i :=
  @argmin_concat_first Nat Int Int.instLinearOrder _ _ _ h

/-- or before the one that came first, -/
theorem soonest_take (hm : c.soonest sec_now l = some m)
    (h : c.delay sec_now i < c.delay sec_now m) : c.soonest sec_now (l ++ [i]) = some i :=
  @argmin_concat_take Nat Int Int.instLinearOrder _ _ _ _ hm h

/-- or not. -/
theorem soonest_keep (hm : c.soonest sec_now l = some m)
    (h : c.delay sec_now m ≤ c.delay sec_now i) : c.soonest sec_now (l ++ [i]) = some m :=
  @argmin_concat_keep Nat Int Int.instLinearOrder _ _ _ _ hm h

theorem filter_concat (h : (c.alarm i).started) :
    (l ++ [i]).filter (fun i => (c.alarm i).started) =
      (l.filter fun i => (c.alarm i).started) ++ [i] := by
  simp [List.filter_append, h]

theorem clock_of_soonest (hl : ∀ j ∈ l, Clock (c.alarm j).wktime)
    (hm : c.soonest sec_now (l.filter fun i => (c.alarm i).started) = some m) :
    Clock (c.alarm m).wktime :=
  hl m (List.mem_filter.mp (soonest_mem hm)).1

/-- A started alarm later in the day. -/
theorem Seen.later (h : Seen c sec_now l s) (hi : Clock (c.alarm i).wktime)
    (hl : ∀ j ∈ l, Clock (c.alarm j).wktime) (hnow : 0 ≤ sec_now ∧ sec_now < 86400)
    (hstart : (c.alarm i).started) (hgt : sec_now < c.day i) :
    Seen c sec_now (l ++ [i]) (if c.day i - sec_now < s.sec_next then
      { s with sec_next := c.day i - sec_now, alm_next := some i } else s) := by
  have hdelay := delay_later hi hnow.1 hgt
  have hday : c.day i < 86400 := hi.secOfDay_lt.2
  cases h with
  | next m hm harg hsec hpos hlt =>
    have hdelay' := delay_later (clock_of_soonest hl harg) hnow.1 (by omega)
    split
    case isTrue hless =>
      refine .next i rfl ?_ rfl (by simp only; omega) (by simp only; omega)
      rw [filter_concat hstart]
      exact soonest_take harg (by omega)
    case isFalse hless =>
      refine .next m hm ?_ hsec hpos hlt
      rw [filter_concat hstart]
      exact soonest_keep harg (by omega)
  | prev m hnext hm harg hsec hneg =>
    have hdelay' := delay_earlier (clock_of_soonest hl harg) hnow.2 (by omega)
    have hday' : 0 ≤ c.day m := (clock_of_soonest hl harg).secOfDay_lt.1
    rw [if_pos (by omega)]
    refine .next i rfl ?_ rfl (by simp only; omega) (by simp only; omega)
    rw [filter_concat hstart]
    exact soonest_take harg (by omega)
  | now hnext hprev hall =>
    rw [if_pos (by omega)]
    refine .next i rfl ?_ rfl (by simp only; omega) (by simp only; omega)
    rw [filter_concat hstart]
    refine soonest_first fun j hj => ?_
    obtain ⟨hj, hs⟩ := List.mem_filter.mp hj
    rw [delay_now (hall j hj hs)]
    omega

/-- A started alarm that is due now or was due earlier in the day. -/
theorem Seen.earlier (h : Seen c sec_now l s) (hi : Clock (c.alarm i).wktime)
    (hl : ∀ j ∈ l, Clock (c.alarm j).wktime) (hnow : 0 ≤ sec_now ∧ sec_now < 86400)
    (hstart : (c.alarm i).started) (hle : c.day i ≤ sec_now) :
    Seen c sec_now (l ++ [i]) (if c.day i - sec_now < s.sec_prev then
      { s with sec_prev := c.day i - sec_now, alm_prev := some i } else s) := by
  have hday : 0 ≤ c.day i := hi.secOfDay_lt.1
  have hdelay : c.delay sec_now i = c.day i - sec_now + 86400 := by
    rcases Int.lt_or_eq_of_le hle with hlt | heq
    · exact delay_earlier hi hnow.2 hlt
    · rw [delay_now heq]
      omega
  cases h with
  | next m hm harg hsec hpos hlt =>
    have hdelay' := delay_later (clock_of_soonest hl harg) hnow.1 (by omega)
    have hday' : c.day m < 86400 := (clock_of_soonest hl harg).secOfDay_lt.2
    have hkeep : c.soonest sec_now ((l ++ [i]).filter fun i => (c.alarm i).started) = some m := by
      rw [filter_concat hstart]
      exact soonest_keep harg (by omega)
    split
    · exact .next m hm hkeep hsec hpos hlt
    · exact .next m hm hkeep hsec hpos hlt
  | prev m hnext hm harg hsec hneg =>
    have hdelay' := delay_earlier (clock_of_soonest hl harg) hnow.2 (by omega)
    split
    case isTrue hless =>
      refine .prev i hnext rfl ?_ rfl (by simp only; omega)
      rw [filter_concat hstart]
      exact soonest_take harg (by omega)
    case isFalse hless =>
      refine .prev m hnext hm ?_ hsec hneg
      rw [filter_concat hstart]
      exact soonest_keep harg (by omega)
  | now hnext hprev hall =>
    split
    case isTrue hless =>
      refine .prev i hnext rfl ?_ rfl (by simp only; omega)
      rw [filter_concat hstart]
      refine soonest_first fun j hj => ?_
      obtain ⟨hj, hs⟩ := List.mem_filter.mp hj
      rw [delay_now (hall j hj hs)]
      omega
    case isFalse hless =>
      refine .now hnext hprev fun j hj hs => ?_
      rcases List.mem_append.mp hj with hj | hj
      · exact hall j hj hs
      · rw [List.mem_singleton.mp hj]
        omega

/-- One more alarm. -/
theorem Seen.choose (h : Seen c sec_now l s) (hi : Clock (c.alarm i).wktime)
    (hl : ∀ j ∈ l, Clock (c.alarm j).wktime) (hnow : 0 ≤ sec_now ∧ sec_now < 86400) :
    Seen c sec_now (l ++ [i]) (c.choose sec_now s i) := by
  have hday : (alarm_mkdaysec (c.alarm i).wktime).toInt = c.day i := hi.mkdaysec
  by_cases hstart : (c.alarm i).started
  · simp only [Container.choose, hday, hstart, if_true]
    by_cases hgt : sec_now < c.day i
    · rw [if_pos (by omega)]
      exact h.later hi hl hnow hstart hgt
    · rw [if_neg (by omega)]
      exact h.earlier hi hl hnow hstart (by omega)
  · have hfilter : (l ++ [i]).filter (fun i => (c.alarm i).started) =
        l.filter fun i => (c.alarm i).started := by
      simp [List.filter_append, hstart]
    simp only [Container.choose, hstart, if_false, Bool.false_eq_true]
    cases h with
    | next m hm harg hsec hpos hlt => exact .next m hm (hfilter ▸ harg) hsec hpos hlt
    | prev m hnext hm harg hsec hneg => exact .prev m hnext hm (hfilter ▸ harg) hsec hneg
    | now hnext hprev hall =>
      refine .now hnext hprev fun j hj hs => ?_
      rcases List.mem_append.mp hj with hj | hj
      · exact hall j hj hs
      · exact absurd (List.mem_singleton.mp hj ▸ hs) hstart

/-- All alarms of a list. -/
theorem Seen.all (hl : ∀ j ∈ l, Clock (c.alarm j).wktime) (hnow : 0 ≤ sec_now ∧ sec_now < 86400) :
    Seen c sec_now l (l.foldl (c.choose sec_now) ⟨24 * 3600, 0, none, none⟩) := by
  induction l using List.reverseRecOn with
  | nil => exact .now rfl rfl fun j hj => absurd hj List.not_mem_nil
  | append_singleton l i ih =>
    have hl' : ∀ j ∈ l, Clock (c.alarm j).wktime := fun j hj =>
      hl j (List.mem_append_left _ hj)
    rw [List.foldl_append]
    exact (ih hl').choose (hl i (by simp)) hl' hnow

/-- A list of valid alarms; the current alarm is one of them, and without one nothing is programmed. -/
structure Good (c : Container) : Prop where
  alarms : ∀ i ∈ c.head, (c.alarm i).Valid
  current : ∀ i, c.current = some i → i ∈ c.head
  idle : c.current = none → c.programmed = none

/-- Every started alarm is set for exactly now. -/
def AllNow (c : Container) (sec_now : Int) : Prop := ∀ i ∈ c.startedList, c.day i = sec_now

theorem mem_startedList : i ∈ c.startedList ↔ i ∈ c.head ∧ (c.alarm i).started = true :=
  List.mem_filter

/-- `alarm_update` enables the alarm that comes next. -/
theorem alarm_choose_next (hg : c.Good) (hnow : Clock now) (h : ¬ c.AllNow (secOfDay now)) :
    ∃ m, c.next (secOfDay now) = some m ∧
      c.alarm_choose now = { c.given m with current := some m } := by
  have hclock (j : Nat) (hj : j ∈ c.head) : Clock (c.alarm j).wktime := (hg.alarms j hj).clock
  have hseen := Seen.all hclock hnow.secOfDay_lt
  simp only [alarm_choose, hnow.mkdaysec]
  have henable (m : Nat) (hm : c.next (secOfDay now) = some m) :
      c.enable (some m) = { c.given m with current := some m } := by
    have hmem := (List.mem_filter.mp (soonest_mem hm)).1
    simp only [enable, alarm_set_eq (hclock m hmem), if_true]
  cases hseen with
  | next m hm harg hsec hpos hlt =>
    refine ⟨m, harg, ?_⟩
    rw [if_pos hlt, hm, henable m harg]
  | prev m hnext hm harg hsec hneg =>
    refine ⟨m, harg, ?_⟩
    rw [if_neg (by omega), if_pos hneg, hm, henable m harg]
  | now hnext hprev hall =>
    exact absurd (fun i hi => hall i (mem_startedList.mp hi).1 (mem_startedList.mp hi).2) h

/-- Without an alarm at another time it gives the current one to the device again. -/
theorem alarm_choose_now (hg : c.Good) (hnow : Clock now) (h : c.AllNow (secOfDay now)) :
    c.alarm_choose now = c.current.elim c c.given := by
  have hclock (j : Nat) (hj : j ∈ c.head) : Clock (c.alarm j).wktime := (hg.alarms j hj).clock
  have hseen := Seen.all hclock hnow.secOfDay_lt
  simp only [alarm_choose, hnow.mkdaysec]
  have haway (m : Nat) (hm : c.next (secOfDay now) = some m) : c.day m = secOfDay now :=
    h m (soonest_mem hm)
  cases hseen with
  | next m hm harg hsec hpos hlt =>
    have heq := haway m harg
    omega
  | prev m hnext hm harg hsec hneg =>
    have heq := haway m harg
    omega
  | now hnext hprev hall =>
    rw [if_neg (by omega), if_neg (by omega)]
    cases hcur : c.current with
    | none => rfl
    | some k => simp only [alarm_set_eq (hclock k (hg.current k hcur)), Option.elim_some]

/-- Whenever an alarm is started, the device has a started alarm with the least delay. -/
def NextProgrammed (c : Container) (sec_now : Int) : Prop :=
  c.startedList ≠ [] → ∃ i ∈ c.startedList, c.programmed = some i ∧
    ∀ j ∈ c.startedList, c.delay sec_now i ≤ c.delay sec_now j

/-- An alarm is set for another time, or none is started, or the current one is. -/
def ChoiceFits (c : Container) (sec_now : Int) : Prop :=
  ¬ c.AllNow sec_now ∨ c.startedList = [] ∨ ∃ k, c.current = some k ∧ (c.alarm k).started

theorem alarm_choose_agrees (hg : c.Good) (hnow : Clock now) :
    (c.alarm_choose now).NextProgrammed (secOfDay now) ↔ c.ChoiceFits (secOfDay now) := by
  by_cases hall : c.AllNow (secOfDay now)
  · rw [alarm_choose_now hg hnow hall]
    have hfits : c.ChoiceFits (secOfDay now) ↔
        (c.startedList ≠ [] → ∃ k, c.current = some k ∧ (c.alarm k).started) := by
      simp only [ChoiceFits, hall, not_true_eq_false, false_or, ne_eq]
      exact Decidable.or_iff_not_imp_left
    rw [hfits]
    cases hcur : c.current with
    | none =>
      rw [Option.elim_none]
      refine forall_congr' fun _ => ⟨?_, ?_⟩
      · rintro ⟨i, -, hp, -⟩
        rw [hg.idle hcur] at hp
        cases hp
      · rintro ⟨k, hk, -⟩
        cases hk
    | some k =>
      rw [Option.elim_some]
      refine forall_congr' (p := fun _ : c.startedList ≠ [] => _) fun _ => ?_
      constructor
      · rintro ⟨i, hi, hp, -⟩
        refine ⟨k, rfl, ?_⟩
        by_contra hstop
        rw [show (c.given k).programmed = none from if_neg hstop] at hp
        cases hp
      · rintro ⟨k', hk', hstart⟩
        obtain rfl := Option.some.inj hk'
        have hmem := mem_startedList.mpr ⟨hg.current k hcur, hstart⟩
        refine ⟨k, hmem, if_pos hstart, fun j hj => ?_⟩
        exact le_of_eq ((delay_now (hall k hmem)).trans (delay_now (hall j hj)).symm)
  · obtain ⟨m, hm, hchoose⟩ := alarm_choose_next hg hnow hall
    rw [hchoose]
    have hmem : m ∈ c.startedList := soonest_mem hm
    refine ⟨fun _ => .inl hall, fun _ _ => ⟨m, hmem, ?_, fun j hj => soonest_le hm hj⟩⟩
    exact if_pos (mem_startedList.mp hmem).2

end Container

/-! ### Waking the alarms -/

theorem started_clear (a : RtAlarm) (w : Tm) :
    ({ a with wktime := w, flag := a.flag &&& ~~~RT_ALARM_STATE_START } : RtAlarm).started = false := by
  have hclear : a.flag &&& ~~~RT_ALARM_STATE_START &&& RT_ALARM_STATE_START = 0 := by
    rw [BitVec.and_assoc, BitVec.and_comm (~~~_), BitVec.and_not_self]
    exact BitVec.and_zero
  exact decide_eq_false (not_not.mpr hclear)

/-- A woken alarm has a valid time again, and `now` stays. -/
theorem wakeupCase_valid {a : RtAlarm} (ha : a.Valid) (hnow : Clock now) {time : Int}
    (htime : timegm now = some (time, now)) :
    ∃ wakeup a', wakeupCase a now = some (wakeup, a', now) ∧ a'.Valid ∧
      (a.mode = RT_ALARM_ONESHOT → wakeup → a'.started = false) := by
  have hclock := ha.clock
  simp only [wakeupCase]
  by_cases hone : a.mode = RT_ALARM_ONESHOT
  · obtain ⟨ret, w', hw, hw', hmon⟩ := hclock.timegm (ha.month hone)
    simp only [if_pos hone, hw, htime, Option.bind_eq_bind, Option.bind_some]
    split
    · exact ⟨_, _, rfl, ⟨hw', fun _ => hmon⟩, fun _ _ => started_clear _ _⟩
    · exact ⟨_, _, rfl, ⟨hw', fun _ => hmon⟩, fun _ h => by cases h⟩
  rw [if_neg hone]
  have hsame {wakeup : Bool} {w' : Tm} (hw : Clock w') :
      ∃ wakeup' a', some (wakeup, { a with wktime := w' }, now) = some (wakeup', a', now) ∧ a'.Valid ∧
        (a.mode = RT_ALARM_ONESHOT → wakeup' → a'.started = false) :=
    ⟨_, _, rfl, ⟨hw, fun h => absurd h hone⟩, fun h => absurd h hone⟩
  split
  · exact hsame (Clock.bumpSec ⟨hnow.sec_nonneg, hnow.sec_lt, hnow.min_nonneg, hnow.min_lt,
      hnow.hour_nonneg, hnow.hour_lt⟩)
  split
  · split
    · exact hsame (Clock.bumpMin ⟨hclock.sec_nonneg, hclock.sec_lt, hnow.min_nonneg, hnow.min_lt,
        hnow.hour_nonneg, hnow.hour_lt⟩)
    · exact hsame ⟨hclock.sec_nonneg, hclock.sec_lt, hclock.min_nonneg, hclock.min_lt,
        hnow.hour_nonneg, hnow.hour_lt⟩
  split
  · split
    · exact hsame (Clock.bumpHour ⟨hclock.sec_nonneg, hclock.sec_lt, hclock.min_nonneg,
        hclock.min_lt, hnow.hour_nonneg, hnow.hour_lt⟩)
    · exact hsame hclock
  split
  · exact hsame hclock
  split
  · exact hsame hclock
  split
  · exact hsame hclock
  split <;> exact hsame hclock

namespace Container

theorem Good.put (hg : c.Good) {a : RtAlarm} (ha : a.Valid) : (c.put i a).Good := by
  refine ⟨fun j hj => ?_, hg.current, hg.idle⟩
  simp only [Container.put, Function.update_apply]
  split
  · exact ha
  · exact hg.alarms j hj

/-- What the callbacks must not do: leave the container in a bad state, or change the list that
`alarm_update` is walking. -/
structure Keeps (callback : Callback) : Prop where
  good : ∀ i time c, c.Good → (callback i time c).Good
  head : ∀ i time c, (callback i time c).head = c.head

variable {callback : Callback} (timestamp : Nat → Int)

theorem alarm_wakeup_good (hcall : Keeps callback) (hg : c.Good) (hi : i ∈ c.head) (hnow : Clock now)
    {time : Int} (htime : timegm now = some (time, now)) :
    ∃ c', c'.Good ∧ c'.head = c.head ∧
      alarm_wakeup callback timestamp (c, now) i = some (c', now) := by
  obtain ⟨wakeup, a', hcase, ha', hstop⟩ := wakeupCase_valid (hg.alarms i hi) hnow htime
  simp only [alarm_wakeup]
  split
  case isFalse => exact ⟨c, hg, rfl, rfl⟩
  case isTrue hstart =>
    simp only [hcase, Option.bind_eq_bind, Option.bind_some]
    have hput := hg.put (i := i) ha'
    have hself : (c.put i a').alarm i = a' := Function.update_self ..
    have hclock : Clock ((c.put i a').alarm i).wktime := by rw [hself]; exact ha'.clock
    have hafter : (if (c.alarm i).mode = RT_ALARM_ONESHOT ∧ wakeup = true then
        ((c.put i a').alarm_set i).1 else c.put i a').Good := by
      split
      case isFalse => exact hput
      case isTrue hone =>
        rw [alarm_set_eq hclock]
        refine ⟨hput.alarms, hput.current, fun _ => if_neg ?_⟩
        rw [hself, hstop hone.1 hone.2]
        decide
    have hhead : (if (c.alarm i).mode = RT_ALARM_ONESHOT ∧ wakeup = true then
        ((c.put i a').alarm_set i).1 else c.put i a').head = c.head := by
      split
      · rw [alarm_set_eq hclock]
        rfl
      · rfl
    split
    · exact ⟨_, hcall.good _ _ _ hafter, (hcall.head _ _ _).trans hhead, rfl⟩
    · exact ⟨_, hafter, hhead, rfl⟩

/-- All alarms of a part of the list. -/
theorem foldlM_wakeup_good (hcall : Keeps callback) (hnow : Clock now) {time : Int}
    (htime : timegm now = some (time, now)) {l : List Nat} (hg : c.Good) (hl : ∀ i ∈ l, i ∈ c.head) :
    ∃ c', c'.Good ∧ c'.head = c.head ∧
      l.foldlM (alarm_wakeup callback timestamp) (c, now) = some (c', now) := by
  induction l generalizing c with
  | nil => exact ⟨c, hg, rfl, rfl⟩
  | cons i l ih =>
    obtain ⟨c₁, hg₁, hhead₁, hwake⟩ :=
      alarm_wakeup_good timestamp hcall hg (hl i (by simp)) hnow htime
    obtain ⟨c₂, hg₂, hhead₂, hrest⟩ := ih hg₁ fun j hj => hhead₁ ▸ hl j (by simp [hj])
    refine ⟨c₂, hg₂, hhead₂.trans hhead₁, ?_⟩
    rw [List.foldlM_cons, hwake]
    exact hrest

theorem alarm_wakeups_good (hcall : Keeps callback) (hg : c.Good) (before : Nat) :
    ∃ c', c'.Good ∧ c'.head = c.head ∧ c.alarm_wakeups callback timestamp before = some c' := by
  obtain ⟨now, hnow, hclock, -, htime⟩ := gmtime_r_clock before
  obtain ⟨c', hg', hhead, hfold⟩ :=
    foldlM_wakeup_good timestamp hcall hclock htime hg fun i hi => hi
  refine ⟨c', hg', hhead, ?_⟩
  simp only [alarm_wakeups, hnow, hfold, Option.bind_eq_bind, Option.bind_some]

/-- `alarm_update` leaves the next alarm programmed, with the alarms as they are after waking, unless
all of them are set for exactly now and the current one is not started. -/
theorem alarm_update_agrees (hcall : Keeps callback) (hg : c.Good) (before after : Nat) :
    ∃ c₁ c', c.alarm_wakeups callback timestamp before = some c₁ ∧
      c.alarm_update callback timestamp before after = some c' ∧
      (c'.NextProgrammed (after % 86400) ↔ c₁.ChoiceFits (after % 86400)) := by
  obtain ⟨c₁, hg₁, hhead, hwake⟩ := alarm_wakeups_good timestamp hcall hg before
  obtain ⟨now, hnow, hclock, hsec, -⟩ := gmtime_r_clock after
  by_cases hempty : c.head = []
  · have hnone : c.startedList = [] ∧ c₁.startedList = [] := by
      simp only [startedList, hhead, hempty, List.filter_nil, and_self]
    refine ⟨c₁, c, hwake, if_pos hempty, fun _ => .inr (.inl hnone.2), fun _ hne => ?_⟩
    exact absurd hnone.1 hne
  · refine ⟨c₁, c₁.alarm_choose now, hwake, ?_, ?_⟩
    · simp only [alarm_update, if_neg hempty, hwake, hnow, Option.bind_eq_bind, Option.bind_some]
    · rw [← hsec]
      exact alarm_choose_agrees hg₁ hclock

/-! ### Stopping an alarm -/

/-- The container after the alarm at `i` is stopped, without it if it was the current one. -/
def stopped (c : Container) (i : Nat) : Container :=
  if c.current = some i then { (c.stop i).given i with current := none } else c.stop i

theorem stop_alarm (c : Container) (i : Nat) : (c.stop i).alarm i =
    { c.alarm i with flag := (c.alarm i).flag &&& ~~~RT_ALARM_STATE_START } :=
  Function.update_self ..

theorem stop_started (c : Container) (i : Nat) : ((c.stop i).alarm i).started = false := by
  rw [stop_alarm]
  exact started_clear _ (c.alarm i).wktime

theorem stopped_good (hg : c.Good) (hi : i ∈ c.head) : (c.stopped i).Good := by
  have hclear : RtAlarm.Valid { c.alarm i with
      flag := (c.alarm i).flag &&& ~~~RT_ALARM_STATE_START } := by
    refine ⟨(hg.alarms i hi).clock, fun hone => (hg.alarms i hi).month ?_⟩
    have hmask : ~~~RT_ALARM_STATE_START &&& 0xFF00 = 0xFF00 := by decide
    simp only [RtAlarm.mode] at hone ⊢
    rwa [BitVec.and_assoc, hmask] at hone
  have hstop := hg.put (i := i) hclear
  rw [stopped]
  split
  · refine ⟨hstop.alarms, fun k hk => ?_, fun _ => if_neg ?_⟩
    · cases hk
    · rw [stop_started]
      decide
  · exact hstop

/-- `rt_alarm_stop` of a started alarm leaves the choice to `alarm_update`. -/
theorem rt_alarm_stop_eq (hg : c.Good) (hi : i ∈ c.head) (hstart : (c.alarm i).started)
    (before after : Nat) :
    c.rt_alarm_stop callback timestamp before after i =
      ((c.stopped i).alarm_update callback timestamp before after).map fun c => (c, RT_EOK) := by
  have hclock : Clock ((c.stop i).alarm i).wktime := by
    rw [stop_alarm]
    exact (hg.alarms i hi).clock
  have hset := alarm_set_eq hclock
  by_cases hcur : c.current = some i
  · simp only [rt_alarm_stop, hstart, stopped, hcur, hset, if_true,
      show (c.stop i).current = some i from hcur]
    exact Option.map_eq_bind.symm
  · simp only [rt_alarm_stop, hstart, stopped, hcur, if_true, if_false,
      show (c.stop i).current = c.current from rfl]
    exact Option.map_eq_bind.symm

/-- So it leaves the next alarm programmed under the condition of `alarm_update`. -/
theorem rt_alarm_stop_agrees (hcall : Keeps callback) (hg : c.Good) (hi : i ∈ c.head)
    (hstart : (c.alarm i).started) (before after : Nat) :
    ∃ c₁ c', (c.stopped i).alarm_wakeups callback timestamp before = some c₁ ∧
      c.rt_alarm_stop callback timestamp before after i = some (c', RT_EOK) ∧
      (c'.NextProgrammed (after % 86400) ↔ c₁.ChoiceFits (after % 86400)) := by
  obtain ⟨c₁, c', hwake, hupdate, hiff⟩ :=
    alarm_update_agrees timestamp hcall (stopped_good hg hi) before after
  refine ⟨c₁, c', hwake, ?_, hiff⟩
  rw [rt_alarm_stop_eq timestamp hg hi hstart, hupdate]
  rfl

/-- `rt_alarm_delete` chooses again only if the alarm was the current one. -/
theorem rt_alarm_delete_eq (hg : c.Good) (hi : i ∈ c.head) (before after : Nat) :
    c.rt_alarm_delete callback timestamp before after i =
      if c.current = some i then
        ((c.stopped i).alarm_update callback timestamp before after).map fun c =>
          ({ c with head := c.head.erase i }, RT_EOK)
      else some ({ c.stopped i with head := c.head.erase i }, RT_EOK) := by
  have hclock : Clock ((c.stop i).alarm i).wktime := by
    rw [stop_alarm]
    exact (hg.alarms i hi).clock
  have hset := alarm_set_eq hclock
  have hcurrent : (c.stop i).current = c.current := rfl
  by_cases hcur : c.current = some i
  · simp only [rt_alarm_delete, stopped, hcurrent, hcur, hset, if_true]
    cases alarm_update callback timestamp before after
      { (c.stop i).given i with current := none } <;> rfl
  · simp only [rt_alarm_delete, stopped, hcurrent, hcur, if_false]
    rfl

end Container

/-! ### Setting an alarm up -/

theorem Clock.careClock (h : Clock w) : careClock w now = w := by
  have hs : ¬ (w.tm_sec > 59 ∨ w.tm_sec < 0) := by
    have h1 := h.sec_nonneg
    have h2 := h.sec_lt
    omega
  have hm : ¬ (w.tm_min > 59 ∨ w.tm_min < 0) := by
    have h1 := h.min_nonneg
    have h2 := h.min_lt
    omega
  have hh : ¬ (w.tm_hour > 23 ∨ w.tm_hour < 0) := by
    have h1 := h.hour_nonneg
    have h2 := h.hour_lt
    omega
  simp only [Drivers.careClock, if_neg hs, if_neg hm, if_neg hh]

theorem careMday_clock (h : Clock w) (last : Int) : Clock (careMday w now last) := by
  rw [careMday]
  split
  · exact ⟨h.sec_nonneg, h.sec_lt, h.min_nonneg, h.min_lt, h.hour_nonneg, h.hour_lt⟩
  · exact h

/-- Fields with the same time of day. -/
theorem Clock.copy {w' : Tm} (h : Clock w) (hs : w'.tm_sec = w.tm_sec) (hm : w'.tm_min = w.tm_min)
    (hh : w'.tm_hour = w.tm_hour) : Clock w' :=
  ⟨hs ▸ h.sec_nonneg, hs ▸ h.sec_lt, hm ▸ h.min_nonneg, hm ▸ h.min_lt, hh ▸ h.hour_nonneg,
    hh ▸ h.hour_lt⟩

theorem careYear_clock (h : Clock w) : Clock (careYear w now) := by
  simp only [careYear]
  split_ifs <;>
  · apply careMday_clock
    exact h.copy rfl rfl rfl

/-- Every case of the setup keeps a valid time of day. -/
theorem setupCase_clock (mode : BitVec 32) (h : Clock w) (hnow : Clock now) :
    Clock (setupCase mode w now).1 := by
  rw [setupCase]
  split
  · exact Clock.bumpSec (hnow.copy rfl rfl rfl)
  split
  · exact Clock.bumpMin ⟨h.sec_nonneg, h.sec_lt, hnow.min_nonneg, hnow.min_lt, hnow.hour_nonneg,
      hnow.hour_lt⟩
  split
  · exact Clock.bumpHour ⟨h.sec_nonneg, h.sec_lt, h.min_nonneg, h.min_lt, hnow.hour_nonneg,
      hnow.hour_lt⟩
  split
  · exact h
  split
  · exact h.copy rfl rfl rfl
  split
  · show Clock (if _ then _ else _)
    split
    · exact h.copy rfl rfl rfl
    · exact h
  split
  · exact careMday_clock h _
  split
  · exact careYear_clock h
  · exact h

theorem mode_or (a : RtAlarm) {bits : BitVec 32} (hbits : bits &&& 0xFF00 = 0) (w : Tm) :
    ({ a with wktime := w, flag := a.flag ||| bits } : RtAlarm).mode = a.mode := by
  simp only [RtAlarm.mode]
  rw [BitVec.and_or_distrib_right, hbits]
  exact BitVec.or_zero

/-- The setup of a valid alarm is valid, whether it goes on or not. -/
theorem alarm_setup_valid {a : RtAlarm} (ha : a.Valid) (hnow : Clock now) :
    (alarm_setup a now).1.Valid := by
  have hclock := setupCase_clock a.mode ha.clock hnow
  have hmonth : a.mode = RT_ALARM_ONESHOT → 0 ≤ (setupCase a.mode a.wktime now).1.tm_mon ∧
      (setupCase a.mode a.wktime now).1.tm_mon ≤ 11 := by
    intro hone
    have hmon := ha.month hone
    have hcase : (setupCase a.mode a.wktime now).1 = careDate a.wktime now := by
      rw [hone]
      rfl
    have hne : a.wktime.tm_mon ≠ RT_ALARM_TM_NOW := by
      simp only [RT_ALARM_TM_NOW]
      omega
    simp only [hcase, careDate, if_neg hne]
    exact hmon
  simp only [alarm_setup, ha.clock.careClock]
  split
  · refine ⟨?_, fun hone => ?_⟩
    · split
      · have hdelay : (0 : Int) ≤ 60 - (RT_ALARM_DELAY : Int) ∧ 60 - (RT_ALARM_DELAY : Int) < 60 := by
          decide
        exact ⟨hdelay.1, hdelay.2, hclock.min_nonneg, hclock.min_lt, hclock.hour_nonneg,
          hclock.hour_lt⟩
      · exact hclock
    · have hbits : RT_ALARM_STATE_INITED &&& 0xFF00 = 0 := by decide
      have hmon := hmonth (mode_or a hbits _ ▸ hone)
      split <;> exact hmon
  · exact ⟨hclock, hmonth⟩

/-! ### Starting an alarm -/

namespace Container

/-- The record of the alarm at `i` as `rt_alarm_start` leaves it. -/
def startRecord (c : Container) (i : Nat) (setupNow : Tm) : RtAlarm :=
  let a := c.alarm i
  if a.started then a
  else
    let s := alarm_setup a setupNow
    if s.2 ≠ RT_EOK then s.1 else { s.1 with flag := s.1.flag ||| RT_ALARM_STATE_START }

/-- `rt_alarm_start` gives the alarm at `i` to the device: it was not started, its setup goes on, and
it takes the place of the current alarm, if there is one. -/
def takes (c : Container) (i : Nat) (setupNow : Tm) (sec_now : Int) : Bool :=
  let c' := c.put i (c.startRecord i setupNow)
  !(c.alarm i).started && (alarm_setup (c.alarm i) setupNow).2 = RT_EOK &&
    c'.current.all fun k => displaces sec_now (c'.day k) (c'.day i)

theorem startRecord_valid (hg : c.Good) (hi : i ∈ c.head) {setupNow : Tm} (hnow : Clock setupNow) :
    (c.startRecord i setupNow).Valid := by
  have hsetup := alarm_setup_valid (hg.alarms i hi) hnow
  simp only [startRecord]
  split
  · exact hg.alarms i hi
  split
  · exact hsetup
  · have hbits : RT_ALARM_STATE_START &&& 0xFF00 = 0 := by decide
    exact ⟨hsetup.clock, fun hone => hsetup.month (mode_or _ hbits _ ▸ hone)⟩

/-- What `rt_alarm_start` does to the container. -/
theorem rt_alarm_start_eq (hg : c.Good) (hi : i ∈ c.head) {setupTime time : Nat} {setupNow : Tm}
    (hsetup : gmtime_r setupTime = some setupNow) (hsetupNow : Clock setupNow)
    (htime : gmtime_r time = some now) (hnow : Clock now) :
    ∃ ret, c.rt_alarm_start i setupTime time = some
      (if c.takes i setupNow (secOfDay now) then
        { (c.put i (c.startRecord i setupNow)).given i with current := some i }
      else c.put i (c.startRecord i setupNow), ret) := by
  have hgood := hg.put (i := i) (startRecord_valid hg hi hsetupNow)
  by_cases hstart : (c.alarm i).started
  · have hsame : c.put i (c.startRecord i setupNow) = c := by
      simp only [startRecord, if_pos hstart, Container.put, Function.update_eq_self]
    refine ⟨RT_EOK, ?_⟩
    simp only [rt_alarm_start, takes, hstart, hsame, if_true, Bool.not_true, Bool.false_and,
      Bool.false_eq_true, if_false]
  by_cases hret : (alarm_setup (c.alarm i) setupNow).2 = RT_EOK
  · have hrecord : c.startRecord i setupNow =
        { (alarm_setup (c.alarm i) setupNow).1 with
          flag := (alarm_setup (c.alarm i) setupNow).1.flag ||| RT_ALARM_STATE_START } := by
      simp only [startRecord, if_neg hstart, hret, ne_eq, not_true_eq_false, if_false]
    have hday (k : Nat) (hk : k ∈ c.head) :
        (alarm_mkdaysec ((c.put i (c.startRecord i setupNow)).alarm k).wktime).toInt =
          (c.put i (c.startRecord i setupNow)).day k :=
      (hgood.alarms k hk).clock.mkdaysec
    have hset := alarm_set_eq (hgood.alarms i hi).clock
    have hcur₁ : (c.put i (c.startRecord i setupNow)).current = c.current := rfl
    refine ⟨RT_EOK, ?_⟩
    simp only [rt_alarm_start, if_neg hstart, hsetup, htime, hret, ne_eq, not_true_eq_false, if_false,
      Option.bind_eq_bind, Option.bind_some, ← hrecord, hnow.mkdaysec, hday i hi, hcur₁]
    cases hcur : c.current with
    | none =>
      have htakes : c.takes i setupNow (secOfDay now) = true := by
        simp only [takes, hstart, hret, hcur₁, hcur, Bool.not_false, decide_true, Bool.and_self,
          Option.all_none]
      simp only [htakes, hset, if_true]
    | some k =>
      have htakes : c.takes i setupNow (secOfDay now) =
          displaces (secOfDay now) ((c.put i (c.startRecord i setupNow)).day k)
            ((c.put i (c.startRecord i setupNow)).day i) := by
        simp only [takes, hstart, hret, hcur₁, hcur, Bool.not_false, decide_true, Bool.true_and,
          Option.all_some]
      simp only [htakes, hday k (hg.current k hcur), hset, if_true]
      split <;> rfl
  · refine ⟨RT_ERROR, ?_⟩
    simp only [rt_alarm_start, takes, hstart, hsetup, hret, startRecord, ne_eq, not_false_eq_true,
      if_true, if_false, Option.bind_eq_bind, Option.bind_some, decide_false, Bool.and_false,
      Bool.false_and, Bool.false_eq_true]

/-- An alarm that is still the current one is started without being given to the device, whatever the
times are. -/
theorem rt_alarm_start_current (hg : c.Good) (hcur : c.current = some i) (setupTime time : Nat) :
    ∃ c' ret, c.rt_alarm_start i setupTime time = some (c', ret) ∧ c'.programmed = c.programmed := by
  obtain ⟨setupNow, hsetup, hsetupNow, -, -⟩ := gmtime_r_clock setupTime
  obtain ⟨now, htime, hnow, -, -⟩ := gmtime_r_clock time
  obtain ⟨ret, hstart⟩ := rt_alarm_start_eq hg (hg.current i hcur) hsetup hsetupNow htime hnow
  refine ⟨_, ret, hstart, ?_⟩
  have hsame (sec_now sec : Int) : displaces sec_now sec sec = false := by
    simp only [displaces, Int.lt_irrefl, decide_false, Bool.false_and, Bool.false_or, Bool.or_false,
      Bool.and_eq_false_iff, decide_eq_false_iff_not]
    omega
  have htakes : c.takes i setupNow (secOfDay now) = false := by
    simp only [takes, show (c.put i (c.startRecord i setupNow)).current = some i from hcur,
      Option.all_some, hsame, Bool.and_false]
  rw [htakes]
  rfl

variable {callback : Callback} {timestamp : Nat → Int}

end Container

end Ab32Vg1.Drivers
