import Ab32Vg1.Kernel.Def
import Ab32Vg1.ProofKit.ByteMemory

/-! The alarm of the real-time clock: `alarm_set` of `alarm.c` hands a record to the control function
of `drv_rtc.c`, which takes it for a time stamp. -/

namespace Ab32Vg1.Drivers

open Kernel ProofKit

/-! ### The clock chip -/

def RTC_WR : BitVec 32 := 0x200

def RTC_RD : BitVec 32 := 0x100

def RTCCNT_CMD : BitVec 32 := 0x01

def RTCALM_CMD : BitVec 32 := 0x02

/-- The registers behind the serial port, and the words that it has taken since it was selected. -/
structure Rtc where
  RTCCNT : BitVec 32
  RTCALM : BitVec 32
  shift : List (BitVec 32)

namespace Rtc

/-- A word from its four bytes, the first one on top. -/
def word (b3 b2 b1 b0 : BitVec 8) : BitVec 32 :=
  BitVec.ofNat 32 (b0.toNat + 256 * (b1.toNat + 256 * (b2.toNat + 256 * b3.toNat)))

/-- `(uint8_t)dat`, as a word. -/
def byte (dat : BitVec 32) : BitVec 32 := (dat.setWidth 8).setWidth 32

/-- The port takes a word; the fifth one of a write command completes it. -/
def take (rtc : Rtc) (RTCDAT : BitVec 32) : Rtc :=
  let rtc := { rtc with shift := rtc.shift ++ [RTCDAT] }
  match rtc.shift with
  | [cmd, b3, b2, b1, b0] =>
    let dat := word (b3.setWidth 8) (b2.setWidth 8) (b1.setWidth 8) (b0.setWidth 8)
    if cmd = RTCALM_CMD ||| RTC_WR then { rtc with RTCALM := dat }
    else if cmd = RTCCNT_CMD ||| RTC_WR then { rtc with RTCCNT := dat }
    else rtc
  | _ => rtc

/-- The register that a read command asks for. -/
def asked (rtc : Rtc) : BitVec 32 :=
  if rtc.shift.head? = some (RTCALM_CMD ||| RTC_RD) then rtc.RTCALM
  else if rtc.shift.head? = some (RTCCNT_CMD ||| RTC_RD) then rtc.RTCCNT
  else 0

def irtc_write (rtc : Rtc) (cmd : BitVec 32) : Rtc := rtc.take cmd

/-- The byte that comes back depends on how many have been read. -/
def irtc_read (rtc : Rtc) : Rtc × BitVec 8 :=
  (rtc.take 0, (rtc.asked >>> (8 * (4 - rtc.shift.length))).setWidth 8)

def select (rtc : Rtc) : Rtc := { rtc with shift := [] }

def irtc_time_write (rtc : Rtc) (cmd dat : BitVec 32) : Rtc :=
  let rtc := rtc.select.irtc_write (cmd ||| RTC_WR)
  let rtc := rtc.irtc_write (byte (dat >>> 24))
  let rtc := rtc.irtc_write (byte (dat >>> 16))
  let rtc := rtc.irtc_write (byte (dat >>> 8))
  let rtc := rtc.irtc_write (byte (dat >>> 0))
  rtc.select

def irtc_time_read (rtc : Rtc) (cmd : BitVec 32) : Rtc × BitVec 32 :=
  let rtc := rtc.select.irtc_write (cmd ||| RTC_RD)
  let (rtc, b3) := rtc.irtc_read
  let (rtc, b2) := rtc.irtc_read
  let (rtc, b1) := rtc.irtc_read
  let (rtc, b0) := rtc.irtc_read
  (rtc.select, word b3 b2 b1 b0)

end Rtc

/-! ### The device -/

inductive RtcCtrl where
  | getTime
  | setTime
  | getAlarm
  | setAlarm
  deriving DecidableEq, Repr

/-- `ab32_rtc_control` with an argument at address `args` of the memory. -/
def ab32_rtc_control (rtc : Rtc) (m : Bytes) (cmd : RtcCtrl) (args : Nat) : Rtc × Bytes × Int :=
  let stamp : BitVec 32 := BitVec.ofNat 32 (m.load args 4)
  match cmd with
  | .getTime =>
    let (rtc, sec) := rtc.irtc_time_read RTCCNT_CMD
    (rtc, m.store args 4 sec.toNat, RT_EOK)
  | .setTime => (rtc.irtc_time_write RTCCNT_CMD stamp, m, RT_EOK)
  | .setAlarm => (rtc.irtc_time_write RTCALM_CMD stamp, m, RT_EOK)
  | .getAlarm =>
    let (rtc, sec) := rtc.irtc_time_read RTCALM_CMD
    (rtc, m.store args 4 sec.toNat, RT_EOK)

/-! ### The alarm service -/

/-- The fields of `struct tm` that `alarm_set` uses. -/
structure AlarmTime where
  tm_sec : BitVec 32
  tm_min : BitVec 32
  tm_hour : BitVec 32
  deriving DecidableEq, Repr

structure Alarm where
  flag : BitVec 32
  wktime : AlarmTime

def RT_ALARM_STATE_START : BitVec 32 := 0x01

namespace Alarm

def started (alarm : Alarm) : Prop := alarm.flag &&& RT_ALARM_STATE_START ≠ 0

instance (alarm : Alarm) : Decidable alarm.started := inferInstanceAs (Decidable (_ ≠ _))

/-- `struct rt_rtc_wkalarm` at address `p`, as `alarm_set` fills it. -/
def wkalarm (alarm : Alarm) (m : Bytes) (p : Nat) : Bytes :=
  let m := m.store p 4 (if alarm.started then 1 else 0)
  let m := m.store (p + 4) 4 alarm.wktime.tm_sec.toNat
  let m := m.store (p + 8) 4 alarm.wktime.tm_min.toNat
  m.store (p + 12) 4 alarm.wktime.tm_hour.toNat

/-- The time in a `struct rt_rtc_wkalarm` at address `p`. -/
def readTime (m : Bytes) (p : Nat) : AlarmTime :=
  ⟨BitVec.ofNat 32 (m.load (p + 4) 4), BitVec.ofNat 32 (m.load (p + 8) 4),
    BitVec.ofNat 32 (m.load (p + 12) 4)⟩

/-- `alarm_set` with the device `rtc` and `wkalarm` at address `p` of its stack. -/
def alarm_set (alarm : Alarm) (rtc : Rtc) (m : Bytes) (p : Nat) : Rtc × Alarm × Int :=
  let m := alarm.wkalarm m p
  let (rtc, m, ret) := ab32_rtc_control rtc m .setAlarm p
  if ret = RT_EOK ∧ m.load p 4 ≠ 0 then
    let (rtc, m, ret) := ab32_rtc_control rtc m .getAlarm p
    if ret = RT_EOK then (rtc, { alarm with wktime := readTime m p }, ret) else (rtc, alarm, ret)
  else (rtc, alarm, ret)

/-- The time of day of an alarm. -/
def daySeconds (alarm : Alarm) : Nat :=
  alarm.wktime.tm_hour.toNat * 3600 + alarm.wktime.tm_min.toNat * 60 + alarm.wktime.tm_sec.toNat

structure InRange (alarm : Alarm) : Prop where
  tm_sec : alarm.wktime.tm_sec.toNat < 60
  tm_min : alarm.wktime.tm_min.toNat < 60
  tm_hour : alarm.wktime.tm_hour.toNat < 24

end Alarm

/-- When `alarm_set` succeeds, the alarm register holds the time of day of the alarm, and the alarm
keeps its time. -/
def AlarmContract (alarm : Alarm) (r : Rtc × Alarm × Int) : Prop :=
  r.2.2 = RT_EOK → r.1.RTCALM.toNat % 86400 = alarm.daySeconds ∧ r.2.1.wktime = alarm.wktime

/-! ### What the register holds -/

namespace Rtc

variable {rtc : Rtc} {dat : BitVec 32}

theorem word_bytes (dat : BitVec 32) :
    word ((dat >>> 24).setWidth 8) ((dat >>> 16).setWidth 8) ((dat >>> 8).setWidth 8)
      (dat.setWidth 8) = dat := by
  apply BitVec.eq_of_toNat_eq
  have hdat := dat.isLt
  simp only [word, BitVec.toNat_ofNat, BitVec.toNat_setWidth, BitVec.toNat_ushiftRight,
    Nat.shiftRight_eq_div_pow]
  omega

@[simp] theorem byte_setWidth (dat : BitVec 32) : (byte dat).setWidth 8 = dat.setWidth 8 := by
  apply BitVec.eq_of_toNat_eq
  simp [byte]

/-- A time stamp goes through the serial port byte by byte. -/
theorem irtc_time_write_alarm :
    rtc.irtc_time_write RTCALM_CMD dat = { rtc with RTCALM := dat, shift := [] } := by
  simp only [irtc_time_write, irtc_write, take, select, List.nil_append, List.cons_append, if_true,
    byte_setWidth, BitVec.ushiftRight_zero, word_bytes]

/-- The register comes back as it is, and stays. -/
theorem irtc_time_read_alarm :
    rtc.irtc_time_read RTCALM_CMD = ({ rtc with shift := [] }, rtc.RTCALM) := by
  have halm : RTCALM_CMD ||| RTC_RD ≠ RTCALM_CMD ||| RTC_WR := by decide
  have hcnt : RTCALM_CMD ||| RTC_RD ≠ RTCCNT_CMD ||| RTC_WR := by decide
  simp [irtc_time_read, irtc_write, irtc_read, take, select, asked, halm, hcnt, word_bytes]

end Rtc

/-! ### What the alarm service gets -/

namespace Alarm

variable {alarm : Alarm} {rtc : Rtc} {m : Bytes} {p : Nat}

theorem load_enable (hstart : alarm.started) : (alarm.wkalarm m p).load p 4 = 1 := by
  simp only [wkalarm, hstart, if_true]
  rw [Bytes.load_store_of_disjoint (by omega), Bytes.load_store_of_disjoint (by omega),
    Bytes.load_store_of_disjoint (by omega), Bytes.load_store_of_lt (by decide)]

/-- The time in the record is the alarm's, whatever word stands in front of it. -/
theorem readTime_wkalarm (enable : Nat) :
    readTime ((alarm.wkalarm m p).store p 4 enable) p = alarm.wktime := by
  have hsec : alarm.wktime.tm_sec.toNat < 256 ^ 4 := alarm.wktime.tm_sec.isLt
  have hmin : alarm.wktime.tm_min.toNat < 256 ^ 4 := alarm.wktime.tm_min.isLt
  have hhour : alarm.wktime.tm_hour.toNat < 256 ^ 4 := alarm.wktime.tm_hour.isLt
  have hload : ((alarm.wkalarm m p).store p 4 enable).load (p + 4) 4 = alarm.wktime.tm_sec.toNat := by
    rw [Bytes.load_store_of_disjoint (by omega), wkalarm, Bytes.load_store_of_disjoint (by omega),
      Bytes.load_store_of_disjoint (by omega), Bytes.load_store_of_lt hsec]
  have hload' : ((alarm.wkalarm m p).store p 4 enable).load (p + 8) 4 = alarm.wktime.tm_min.toNat := by
    rw [Bytes.load_store_of_disjoint (by omega), wkalarm, Bytes.load_store_of_disjoint (by omega),
      Bytes.load_store_of_lt hmin]
  have hload'' : ((alarm.wkalarm m p).store p 4 enable).load (p + 12) 4
      = alarm.wktime.tm_hour.toNat := by
    rw [Bytes.load_store_of_disjoint (by omega), wkalarm, Bytes.load_store_of_lt hhour]
  rw [readTime, hload, hload', hload'']
  simp only [BitVec.ofNat_toNat, BitVec.setWidth_eq]

/-- The driver stores the `enable` word, and the service finds its own record. -/
theorem alarm_set_started (hstart : alarm.started) :
    alarm.alarm_set rtc m p = ({ rtc with RTCALM := 1, shift := [] }, alarm, RT_EOK) := by
  simp only [alarm_set, ab32_rtc_control, load_enable hstart, Rtc.irtc_time_write_alarm,
    Rtc.irtc_time_read_alarm, readTime_wkalarm]
  simp

/-- For a stopped alarm the word is 0, and the service does not ask for the time. -/
theorem alarm_set_stopped (hstop : ¬ alarm.started) :
    alarm.alarm_set rtc m p = ({ rtc with RTCALM := 0, shift := [] }, alarm, RT_EOK) := by
  have hload : (alarm.wkalarm m p).load p 4 = 0 := by
    simp only [wkalarm, hstop, if_false]
    rw [Bytes.load_store_of_disjoint (by omega), Bytes.load_store_of_disjoint (by omega),
      Bytes.load_store_of_disjoint (by omega), Bytes.load_store_of_lt (by decide)]
  simp only [alarm_set, ab32_rtc_control, hload, Rtc.irtc_time_write_alarm]
  simp

theorem daySeconds_eq_one (hr : alarm.InRange) :
    alarm.daySeconds = 1 ↔ alarm.wktime = ⟨1, 0, 0⟩ := by
  have hsec := hr.tm_sec
  have hmin := hr.tm_min
  constructor
  · intro h
    simp only [daySeconds] at h
    have hsec1 : alarm.wktime.tm_sec = 1 := BitVec.eq_of_toNat_eq (by simp; omega)
    have hmin0 : alarm.wktime.tm_min = 0 := BitVec.eq_of_toNat_eq (by simp; omega)
    have hhour0 : alarm.wktime.tm_hour = 0 := BitVec.eq_of_toNat_eq (by simp; omega)
    show (⟨alarm.wktime.tm_sec, alarm.wktime.tm_min, alarm.wktime.tm_hour⟩ : AlarmTime) = _
    rw [hsec1, hmin0, hhour0]
  · intro h
    simp only [daySeconds, h]
    decide

/-- The control function takes the record of the service for a time stamp, so the register gets the
`enable` word: that is the alarm's time of day one second after midnight only. -/
theorem alarm_register_agrees (hr : alarm.InRange) (hstart : alarm.started) :
    (alarm.alarm_set rtc m p).2.2 = RT_EOK ∧
    (AlarmContract alarm (alarm.alarm_set rtc m p) ↔ alarm.wktime = ⟨1, 0, 0⟩) := by
  rw [alarm_set_started hstart, ← daySeconds_eq_one hr]
  constructor
  · rfl
  · constructor
    · intro h
      exact (h rfl).1.symm
    · intro h _
      exact ⟨h.symm, rfl⟩

/-- An alarm for 07:30:00. -/
def morning : Alarm where
  flag := RT_ALARM_STATE_START
  wktime := ⟨0, 30, 7⟩

/-- The device and the stack of the service before the call. -/
def idleRtc : Rtc := ⟨0, 0, []⟩

theorem alarm_register_agrees_morning :
    (morning.alarm_set idleRtc (fun _ => 0) 0).2.2 = RT_EOK ∧
    (AlarmContract morning (morning.alarm_set idleRtc (fun _ => 0) 0) ↔
      morning.wktime = ⟨1, 0, 0⟩) :=
  alarm_register_agrees ⟨by decide, by decide, by decide⟩ (by decide)

/-- The alarm is set without an error, and the register holds one second. -/
theorem morning_alarm_lost :
    morning.InRange ∧ morning.started ∧
    (morning.alarm_set idleRtc (fun _ => 0) 0).1.RTCALM.toNat % 86400 = 1 ∧
    ¬ AlarmContract morning (morning.alarm_set idleRtc (fun _ => 0) 0) := by
  refine ⟨⟨by decide, by decide, by decide⟩, by decide, by decide, ?_⟩
  intro h
  have hday := (h (by decide)).1
  revert hday
  decide

end Alarm

end Ab32Vg1.Drivers
