import Ab32Vg1.Drivers.Rtc
import Ab32Vg1.Libc.Time
import Mathlib.Logic.Function.Basic

/-! The alarm service of `alarm.c`: the alarms in its list, the current one, and the clock chip. -/

namespace Ab32Vg1.Drivers

open Kernel ProofKit Libc

def RT_RTC_YEARS_MAX : Int := 137

def RT_ALARM_DELAY : Nat := 2

def RT_ALARM_STATE_INITED : BitVec 32 := 0x02

def RT_ALARM_TM_NOW : Int := -1

def RT_ALARM_ONESHOT : BitVec 32 := 0x000

def RT_ALARM_DAILY : BitVec 32 := 0x100

def RT_ALARM_WEEKLY : BitVec 32 := 0x200

def RT_ALARM_MONTHLY : BitVec 32 := 0x400

def RT_ALARM_YAERLY : BitVec 32 := 0x800

def RT_ALARM_HOUR : BitVec 32 := 0x1000

def RT_ALARM_MINUTE : BitVec 32 := 0x2000

def RT_ALARM_SECOND : BitVec 32 := 0x4000

/-- `struct rt_alarm`; `callback` says that there is one. -/
structure RtAlarm where
  flag : BitVec 32
  callback : Bool
  wktime : Tm

/-- `struct rt_alarm_container` with the alarms by their addresses, and the device behind it:
`programmed` is the alarm that the clock chip has been given and told to enable. -/
structure Container where
  head : List Nat
  alarm : Nat → RtAlarm
  current : Option Nat
  rtc : Rtc
  stack : Bytes
  programmed : Option Nat

def alarm_mkdaysec (time : Tm) : BitVec 32 :=
  BitVec.ofInt 32 (time.tm_sec + time.tm_min * 60 + time.tm_hour * 3600)

namespace RtAlarm

/-- What `alarm_set` reads of an alarm. -/
def request (a : RtAlarm) : Alarm where
  flag := a.flag
  wktime := ⟨BitVec.ofInt 32 a.wktime.tm_sec, BitVec.ofInt 32 a.wktime.tm_min,
    BitVec.ofInt 32 a.wktime.tm_hour⟩

def started (a : RtAlarm) : Bool := a.request.started

def mode (a : RtAlarm) : BitVec 32 := a.flag &&& 0xFF00

end RtAlarm

namespace Container

def put (c : Container) (i : Nat) (a : RtAlarm) : Container :=
  { c with alarm := Function.update c.alarm i a }

/-- `alarm_set` for the alarm at `i`. -/
def alarm_set (c : Container) (i : Nat) : Container × Int :=
  let a := c.alarm i
  let (rtc, r, ret) := a.request.alarm_set c.rtc c.stack 0
  let wktime := { a.wktime with
    tm_sec := r.wktime.tm_sec.toInt
    tm_min := r.wktime.tm_min.toInt
    tm_hour := r.wktime.tm_hour.toInt }
  let c := { c.put i { a with wktime } with rtc }
  if ret = RT_EOK then ({ c with programmed := if a.started then some i else none }, ret)
  else (c, ret)

end Container

/-! ### Waking -/

/-- The next hour of the clock. -/
def bumpHour (w : Tm) : Tm :=
  let w := { w with tm_hour := w.tm_hour + 1 }
  if w.tm_hour > 23 then { w with tm_hour := 0 } else w

def bumpMin (w : Tm) : Tm :=
  let w := { w with tm_min := w.tm_min + 1 }
  if w.tm_min > 59 then bumpHour { w with tm_min := 0 } else w

def bumpSec (w : Tm) : Tm :=
  let w := { w with tm_sec := w.tm_sec + 1 }
  if w.tm_sec > 59 then bumpMin { w with tm_sec := 0 } else w

/-- `sec_alarm` is at most the delay before `sec_now`, as unsigned words. -/
def dueSince (sec_now sec_alarm : BitVec 32) : Bool := (sec_now - sec_alarm).toNat ≤ RT_ALARM_DELAY

/-- The cases of `alarm_wakeup` for a started alarm: whether it wakes, the alarm and `now`. -/
def wakeupCase (a : RtAlarm) (now : Tm) : Option (Bool × RtAlarm × Tm) :=
  let w := a.wktime
  let sec_alarm := alarm_mkdaysec w
  let sec_now := alarm_mkdaysec now
  if a.mode = RT_ALARM_ONESHOT then do
    let alarmTime ← timegm w
    let nowTime ← timegm now
    let sec_alarm := BitVec.ofInt 32 alarmTime.1
    let sec_now := BitVec.ofInt 32 nowTime.1
    let a := { a with wktime := alarmTime.2 }
    if dueSince sec_now sec_alarm && decide (sec_now ≥ sec_alarm) then
      some (true, { a with flag := a.flag &&& ~~~RT_ALARM_STATE_START }, nowTime.2)
    else some (false, a, nowTime.2)
  else if a.mode = RT_ALARM_SECOND then
    let w := { w with tm_hour := now.tm_hour, tm_min := now.tm_min, tm_sec := now.tm_sec }
    some (true, { a with wktime := bumpSec w }, now)
  else if a.mode = RT_ALARM_MINUTE then
    let w := { w with tm_hour := now.tm_hour }
    if w.tm_sec = now.tm_sec then
      some (true, { a with wktime := bumpMin { w with tm_min := now.tm_min } }, now)
    else some (false, { a with wktime := w }, now)
  else if a.mode = RT_ALARM_HOUR then
    if w.tm_min = now.tm_min ∧ w.tm_sec = now.tm_sec then
      some (true, { a with wktime := bumpHour { w with tm_hour := now.tm_hour } }, now)
    else some (false, a, now)
  else if a.mode = RT_ALARM_DAILY then
    some (dueSince sec_now sec_alarm && decide (sec_now ≥ sec_alarm), a, now)
  else if a.mode = RT_ALARM_WEEKLY then
    let sec_alarm := sec_alarm + BitVec.ofInt 32 (w.tm_wday * 24 * 3600)
    let sec_now := sec_now + BitVec.ofInt 32 (now.tm_wday * 24 * 3600)
    some (dueSince sec_now sec_alarm && decide (sec_now ≥ sec_alarm), a, now)
  else if a.mode = RT_ALARM_MONTHLY then
    some (decide (w.tm_mday = now.tm_mday) && dueSince sec_now sec_alarm, a, now)
  else if a.mode = RT_ALARM_YAERLY then
    some (decide (w.tm_mday = now.tm_mday ∧ w.tm_mon = now.tm_mon) && dueSince sec_now sec_alarm,
      a, now)
  else some (false, a, now)

/-- What the callbacks of the alarms do, called with the container locked. -/
abbrev Callback := Nat → Int → Container → Container

namespace Container

/-- `alarm_wakeup` for the alarm at `i`; `timestamp` is the time when its callback is called. -/
def alarm_wakeup (callback : Callback) (timestamp : Nat → Int) (s : Container × Tm) (i : Nat) :
    Option (Container × Tm) := do
  let (c, now) := s
  let a := c.alarm i
  if a.started then
    let (wakeup, a', now) ← wakeupCase a now
    let c := c.put i a'
    let c := if a.mode = RT_ALARM_ONESHOT ∧ wakeup then (c.alarm_set i).1 else c
    if wakeup && a.callback then some (callback i (timestamp i) c, now) else some (c, now)
  else some (c, now)

/-- The first part of `alarm_update`, at `time`: every alarm in the list. -/
def alarm_wakeups (callback : Callback) (timestamp : Nat → Int) (time : Nat) (c : Container) :
    Option Container := do
  let now ← gmtime_r time
  let s ← c.head.foldlM (alarm_wakeup callback timestamp) (c, now)
  some s.1

/-! ### Choosing the next alarm -/

/-- The accumulators of the second loop of `alarm_update`. -/
structure Choice where
  sec_next : Int
  sec_prev : Int
  alm_next : Option Nat
  alm_prev : Option Nat

/-- A turn of the second loop. -/
def choose (c : Container) (sec_now : Int) (s : Choice) (i : Nat) : Choice :=
  let sec_alarm := (alarm_mkdaysec (c.alarm i).wktime).toInt
  if (c.alarm i).started then
    let sec_tmp := sec_alarm - sec_now
    if sec_tmp > 0 then
      if sec_tmp < s.sec_next then { s with sec_next := sec_tmp, alm_next := some i } else s
    else if sec_tmp < s.sec_prev then { s with sec_prev := sec_tmp, alm_prev := some i } else s
  else s

/-- The chosen alarm becomes the current one when the device takes it. -/
def enable (c : Container) (chosen : Option Nat) : Container :=
  match chosen with
  | none => c
  | some i =>
    let (c, ret) := c.alarm_set i
    if ret = RT_EOK then { c with current := some i } else c

/-- The second part of `alarm_update`. -/
def alarm_choose (c : Container) (now : Tm) : Container :=
  let sec_now := (alarm_mkdaysec now).toInt
  let s := c.head.foldl (c.choose sec_now) ⟨24 * 3600, 0, none, none⟩
  if s.sec_next < 24 * 3600 then c.enable s.alm_next
  else if s.sec_prev < 0 then c.enable s.alm_prev
  else
    match c.current with
    | none => c
    | some i => (c.alarm_set i).1

/-- `alarm_update`, with the times before and after the alarms are woken. -/
def alarm_update (callback : Callback) (timestamp : Nat → Int) (before after : Nat)
    (c : Container) : Option Container :=
  if c.head = [] then some c
  else do
    let c ← c.alarm_wakeups callback timestamp before
    let now ← gmtime_r after
    some (c.alarm_choose now)

end Container

/-! ### Setting up -/

def days_of_year_month (tm_year tm_mon : Int) : Int :=
  let year := tm_year + 1900
  if tm_mon = 1 then
    if (year.tmod 4 = 0 ∧ year.tmod 100 ≠ 0) ∨ year.tmod 400 = 0 then 29 else 28
  else if (tm_mon ≤ 6 ∧ tm_mon.tmod 2 = 0) ∨ (tm_mon > 6 ∧ tm_mon.tmod 2 = 1) then 31
  else 30

def is_valid_date (date : Tm) : Bool :=
  !(date.tm_year < 0 || date.tm_year > RT_RTC_YEARS_MAX) &&
  !(date.tm_mon < 0 || date.tm_mon > 11) &&
  !(date.tm_mday < 1 || date.tm_mday > days_of_year_month date.tm_year date.tm_mon)

/-- A day of the month from `1` to `last`, or else that of `now`. -/
def careMday (setup now : Tm) (last : Int) : Tm :=
  if setup.tm_mday < 1 ∨ setup.tm_mday > last then { setup with tm_mday := now.tm_mday } else setup

/-- The "don't care" values of the clock are set to those of `now`. -/
def careClock (setup now : Tm) : Tm :=
  let setup := if setup.tm_sec > 59 ∨ setup.tm_sec < 0 then
    { setup with tm_sec := now.tm_sec } else setup
  let setup := if setup.tm_min > 59 ∨ setup.tm_min < 0 then
    { setup with tm_min := now.tm_min } else setup
  if setup.tm_hour > 23 ∨ setup.tm_hour < 0 then { setup with tm_hour := now.tm_hour } else setup

/-- The "don't care" values of a date are set to those of `now`. -/
def careDate (setup now : Tm) : Tm :=
  { setup with
    tm_year := if setup.tm_year = RT_ALARM_TM_NOW then now.tm_year else setup.tm_year
    tm_mon := if setup.tm_mon = RT_ALARM_TM_NOW then now.tm_mon else setup.tm_mon
    tm_mday := if setup.tm_mday = RT_ALARM_TM_NOW then now.tm_mday else setup.tm_mday }

/-- A day of the year; a leap day is always accepted. -/
def careYear (setup now : Tm) : Tm :=
  let setup := { setup with
    tm_mon := if setup.tm_mon < 0 ∨ setup.tm_mon > 11 then now.tm_mon else setup.tm_mon }
  if setup.tm_mon = 1 then careMday setup now 29
  else if (setup.tm_mon ≤ 6 ∧ setup.tm_mon.tmod 2 = 0) ∨
      (setup.tm_mon > 6 ∧ setup.tm_mon.tmod 2 = 1) then careMday setup now 31
  else careMday setup now 30

/-- The cases of `alarm_setup`: the fields, and whether the setup goes on. -/
def setupCase (mode : BitVec 32) (setup now : Tm) : Tm × Bool :=
  if mode = RT_ALARM_SECOND then
    (bumpSec { setup with tm_hour := now.tm_hour, tm_min := now.tm_min, tm_sec := now.tm_sec }, true)
  else if mode = RT_ALARM_MINUTE then
    (bumpMin { setup with tm_hour := now.tm_hour, tm_min := now.tm_min }, true)
  else if mode = RT_ALARM_HOUR then (bumpHour { setup with tm_hour := now.tm_hour }, true)
  else if mode = RT_ALARM_DAILY then (setup, true)
  else if mode = RT_ALARM_ONESHOT then (careDate setup now, is_valid_date (careDate setup now))
  else if mode = RT_ALARM_WEEKLY then
    (if setup.tm_wday < 0 ∨ setup.tm_wday > 6 then { setup with tm_wday := now.tm_wday } else setup,
      true)
  else if mode = RT_ALARM_MONTHLY then (careMday setup now 31, true)
  else if mode = RT_ALARM_YAERLY then (careYear setup now, true)
  else (setup, false)

/-- `alarm_setup` with the fields of the alarm itself. -/
def alarm_setup (a : RtAlarm) (now : Tm) : RtAlarm × Int :=
  let s := setupCase a.mode (careClock a.wktime now) now
  let setup := s.1
  if s.2 then
    -- An alarm at the end of the day comes two seconds ahead.
    let setup := if setup.tm_hour = 23 ∧ setup.tm_min = 59 ∧ setup.tm_sec = 59 then
      { setup with tm_sec := 60 - (RT_ALARM_DELAY : Int) } else setup
    ({ a with wktime := setup, flag := a.flag ||| RT_ALARM_STATE_INITED }, RT_EOK)
  else ({ a with wktime := setup }, RT_ERROR)

/-! ### Starting and stopping -/

namespace Container

/-- The comparisons of `rt_alarm_start`: the new alarm takes the place of the current one. -/
def displaces (sec_now sec_old sec_new : Int) : Bool :=
  (sec_new < sec_old && sec_new > sec_now) || (sec_new > sec_now && sec_old < sec_now) ||
    (sec_new < sec_old && sec_old < sec_now)

/-- `rt_alarm_start`, with the times that `alarm_setup` and it read. -/
def rt_alarm_start (c : Container) (i : Nat) (setupTime time : Nat) : Option (Container × Int) := do
  let a := c.alarm i
  if a.started then some (c, RT_EOK)
  else
    let now ← gmtime_r setupTime
    let (a, ret) := alarm_setup a now
    if ret ≠ RT_EOK then some (c.put i a, RT_ERROR)
    else
      let now ← gmtime_r time
      let c := c.put i { a with flag := a.flag ||| RT_ALARM_STATE_START }
      let sec_now := (alarm_mkdaysec now).toInt
      let sec_new := (alarm_mkdaysec (c.alarm i).wktime).toInt
      let take := match c.current with
        | none => true
        | some k => displaces sec_now (alarm_mkdaysec (c.alarm k).wktime).toInt sec_new
      if take then
        let (c, ret) := c.alarm_set i
        some (if ret = RT_EOK then { c with current := some i } else c, ret)
      else some (c, RT_EOK)

def stop (c : Container) (i : Nat) : Container :=
  c.put i { c.alarm i with flag := (c.alarm i).flag &&& ~~~RT_ALARM_STATE_START }

def rt_alarm_stop (callback : Callback) (timestamp : Nat → Int) (before after : Nat)
    (c : Container) (i : Nat) : Option (Container × Int) := do
  if (c.alarm i).started then
    let c := c.stop i
    let (c, ret) := if c.current = some i then
        let (c, ret) := c.alarm_set i
        ({ c with current := none }, ret)
      else (c, RT_EOK)
    if ret = RT_EOK then some (← c.alarm_update callback timestamp before after, ret)
    else some (c, ret)
  else some (c, RT_EOK)

/-- `rt_alarm_delete`; the memory of the alarm is not used again. -/
def rt_alarm_delete (callback : Callback) (timestamp : Nat → Int) (before after : Nat)
    (c : Container) (i : Nat) : Option (Container × Int) := do
  let c := c.stop i
  let (c, ret) ← if c.current = some i then do
      let (c, ret) := c.alarm_set i
      let c ← { c with current := none }.alarm_update callback timestamp before after
      some (c, ret)
    else some (c, RT_EOK)
  some ({ c with head := c.head.erase i }, ret)

end Container

end Ab32Vg1.Drivers
