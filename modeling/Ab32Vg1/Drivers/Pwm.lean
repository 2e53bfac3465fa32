import Ab32Vg1.Kernel.Def
import Mathlib.Logic.Function.Basic

/-! `drv_pwm.c`: the outputs of the timers 3 to 5 and the four low-power outputs.  A period and a
pulse arrive in nanoseconds and leave in ticks of the clock of the timer. -/

namespace Ab32Vg1.Drivers.Pwm

open Kernel

def RT_EINVAL : Int := 10

def MAX_PERIOD : Nat := 65535

def MIN_PERIOD : Nat := 3

def MIN_PULSE : Nat := 2

/-- The registers behind a handle: those of a timer, or those that the low-power outputs share. -/
inductive PwmReg
  | TMRxCON
  | TMRxPR
  | TMRxDUTY0
  | TMRxDUTY1
  | TMRxDUTY2
  | PWMxCON
  | PWMxPR
  | PWMxxDUT
  | PWMyyDUT
  deriving DecidableEq, Repr

inductive PwmName
  | t3pwm
  | t4pwm
  | t5pwm
  | lpwm0
  | lpwm1
  | lpwm2
  | lpwm3
  deriving DecidableEq, Repr

/-- `name[4] - '0'`, where `name[0]` is an `l`. -/
def PwmName.pwmNum : PwmName → Option Nat
  | lpwm0 => some 0
  | lpwm1 => some 1
  | lpwm2 => some 2
  | lpwm3 => some 3
  | _ => none

/-- `struct rt_pwm_configuration` -/
structure Configuration where
  channel : BitVec 32
  period : BitVec 32
  pulse : BitVec 32
  complementary : Bool

/-- `struct ab32_pwm` -/
structure Ab32Pwm where
  pwm_handle : PwmReg → BitVec 32
  name : PwmName
  period : BitVec 32
  pulse : BitVec 32

inductive Cmd
  | PWM_CMD_ENABLE
  | PWM_CMD_DISABLE
  | PWM_CMD_SET
  | PWM_CMD_GET
  | PWMN_CMD_ENABLE
  | PWMN_CMD_DISABLE
  | other
  deriving DecidableEq, Repr

/-- The system clocks that can be set, in MHz. -/
def sysclk_index : List Nat := [2, 12, 13, 24, 26, 30, 48, 60, 80, 120]

def SYSCLK_48M : Fin sysclk_index.length := ⟨6, by decide⟩

def get_sysclk_nhz (sys_clk : Fin sysclk_index.length) : BitVec 32 :=
  BitVec.ofNat 32 sysclk_index[sys_clk] * 1000000

/-- `tim_clock`, in kHz. -/
def timClock (sys_clk : Fin sysclk_index.length) (name : PwmName) : BitVec 64 :=
  if name.pwmNum.isSome then 6500 else (get_sysclk_nhz sys_clk / 1000).setWidth 64

def writeReg (pwm : PwmReg → BitVec 32) (r : PwmReg) (v : BitVec 32) : PwmReg → BitVec 32 :=
  Function.update pwm r v

/-- The three outputs of a timer that a channel mask selects, with their duty registers. -/
def timerOutputs (channel : BitVec 8) : List (Nat × PwmReg) :=
  [(0, PwmReg.TMRxDUTY0), (1, .TMRxDUTY1), (2, .TMRxDUTY2)].filter fun out => channel.getLsbD out.1

def drv_pwm_enable (pwm : PwmReg → BitVec 32) (name : PwmName) (configuration : Configuration)
    (enable : Bool) : PwmReg → BitVec 32 :=
  let channel := configuration.channel.setWidth 8
  match name.pwmNum with
  | some pwm_num =>
    let con := pwm .PWMxCON
    let con := if configuration.complementary then con ||| BIT 5 else con &&& ~~~BIT 5
    writeReg pwm .PWMxCON (if enable then con ||| BIT pwm_num else con &&& ~~~BIT pwm_num)
  | none =>
    (timerOutputs channel).foldl (fun pwm out =>
      writeReg pwm .TMRxCON (if enable then pwm .TMRxCON ||| BIT (9 + out.1)
        else pwm .TMRxCON &&& ~~~BIT (9 + out.1))) pwm

/-- `period` in ticks, before the prescaler. -/
def periodTicks (tim_clock : BitVec 64) (period : BitVec 32) : BitVec 32 :=
  (period.setWidth 64 * tim_clock / 1000000).setWidth 32

def psc (tim_clock : BitVec 64) (period : BitVec 32) : BitVec 64 :=
  (periodTicks tim_clock period / BitVec.ofNat 32 MAX_PERIOD + 1).setWidth 64

/-- `period`, as the register gets it. -/
def setPeriod (tim_clock : BitVec 64) (period : BitVec 32) : BitVec 32 :=
  let scaled := ((periodTicks tim_clock period).setWidth 64 / psc tim_clock period).setWidth 32
  if scaled < BitVec.ofNat 32 MIN_PERIOD then BitVec.ofNat 32 MIN_PERIOD else scaled

/-- `pulse`, as the register gets it. -/
def setPulse (tim_clock : BitVec 64) (period pulse : BitVec 32) : BitVec 32 :=
  let scaled := (pulse.setWidth 64 * tim_clock / psc tim_clock period / 1000000).setWidth 32
  if scaled < BitVec.ofNat 32 MIN_PULSE then BitVec.ofNat 32 MIN_PULSE
  else if scaled > setPeriod tim_clock period then setPeriod tim_clock period
  else scaled

/-- The writes of `PWM_CMD_SET`; `psc` reaches no register. -/
def setRegs (pwm : PwmReg → BitVec 32) (name : PwmName) (channel : BitVec 8)
    (period pulse : BitVec 32) : PwmReg → BitVec 32 :=
  match name.pwmNum with
  | some n =>
    let pwm := writeReg pwm .PWMxPR (period - 1)
    match n with
    | 0 => writeReg pwm .PWMxxDUT (pulse - 1)
    | 1 => writeReg pwm .PWMxxDUT ((pulse - 1) <<< 16)
    | 2 => writeReg pwm .PWMyyDUT (pulse - 1)
    | 3 => writeReg pwm .PWMyyDUT ((pulse - 1) <<< 16)
    | _ => pwm
  | none =>
    (timerOutputs channel).foldl (fun pwm out => writeReg pwm out.2 (pulse - 1))
      (writeReg pwm .TMRxPR (period - 1))

def drv_pwm_control (sys_clk : Fin sysclk_index.length) (pwm_obj : Ab32Pwm) (cmd : Cmd)
    (configuration : Configuration) : Int × Ab32Pwm × Configuration :=
  let pwm := pwm_obj.pwm_handle
  let name := pwm_obj.name
  let enable (configuration : Configuration) (on : Bool) : Int × Ab32Pwm × Configuration :=
    (0, { pwm_obj with pwm_handle := drv_pwm_enable pwm name configuration on }, configuration)
  match cmd with
  | .PWMN_CMD_ENABLE => enable { configuration with complementary := true } true
  | .PWM_CMD_ENABLE => enable configuration true
  | .PWMN_CMD_DISABLE => enable { configuration with complementary := false } false
  | .PWM_CMD_DISABLE => enable configuration false
  | .PWM_CMD_SET =>
    let tim_clock := timClock sys_clk name
    let period := setPeriod tim_clock configuration.period
    let pulse := setPulse tim_clock configuration.period configuration.pulse
    let pwm := setRegs pwm name (configuration.channel.setWidth 8) period pulse
    (0, ⟨pwm, name, configuration.period, configuration.pulse⟩, configuration)
  | .PWM_CMD_GET =>
    (0, pwm_obj, { configuration with pulse := pwm_obj.pulse, period := pwm_obj.period })
  | .other => (-RT_EINVAL, pwm_obj, configuration)

/-! ### The registers as numbers -/

/-- The period register of a device. -/
def Ab32Pwm.periodReg (pwm_obj : Ab32Pwm) : Nat :=
  (pwm_obj.pwm_handle (if pwm_obj.name.pwmNum.isSome then .PWMxPR else .TMRxPR)).toNat

/-- The duties of the outputs that a channel mask selects; a low-power output has half a register. -/
def Ab32Pwm.duties (pwm_obj : Ab32Pwm) (channel : BitVec 8) : List Nat :=
  match pwm_obj.name.pwmNum with
  | some 0 => [(pwm_obj.pwm_handle .PWMxxDUT).toNat % 2 ^ 16]
  | some 1 => [(pwm_obj.pwm_handle .PWMxxDUT).toNat / 2 ^ 16]
  | some 2 => [(pwm_obj.pwm_handle .PWMyyDUT).toNat % 2 ^ 16]
  | some 3 => [(pwm_obj.pwm_handle .PWMyyDUT).toNat / 2 ^ 16]
  | some _ => []
  | none => (timerOutputs channel).map fun out => (pwm_obj.pwm_handle out.2).toNat

/-! ### The same sums without a bound -/

/-- Nanoseconds as ticks of a clock in kHz, rounded down. -/
def ticks (clock ns : Nat) : Nat := ns * clock / 1000000

def exactPsc (clock period : Nat) : Nat := ticks clock period / MAX_PERIOD + 1

def exactPeriod (clock period : Nat) : Nat :=
  max MIN_PERIOD (ticks clock period / exactPsc clock period)

def exactPulse (clock period pulse : Nat) : Nat :=
  let scaled := pulse * clock / exactPsc clock period / 1000000
  if scaled < MIN_PULSE then MIN_PULSE else min scaled (exactPeriod clock period)

/-- The request has the least period and the least pulse. -/
def AtLeastMin (clock period pulse : Nat) : Prop :=
  MIN_PERIOD * 1000000 ≤ period * clock ∧ MIN_PULSE * 1000000 ≤ pulse * clock

/-- `n` ticks and `ns` nanoseconds are less than a tick apart. -/
def Close (clock ns n : Nat) : Prop :=
  ns * clock < (n + 1) * 1000000 ∧ n * 1000000 < ns * clock + 1000000

instance {clock period pulse : Nat} : Decidable (AtLeastMin clock period pulse) :=
  inferInstanceAs (Decidable (_ ∧ _))

instance {clock ns n : Nat} : Decidable (Close clock ns n) :=
  inferInstanceAs (Decidable (_ ∧ _))

/-- What `PWM_CMD_SET` is for: no sum overflows, the registers fit each other and the 16 bits of the
counter, and the output, which counts unscaled ticks, is the one requested up to the rounding. -/
structure Meets (clock period pulse pr : Nat) (duties : List Nat) : Prop where
  noOverflow : pr + 1 = exactPeriod clock period ∧
    ∀ d ∈ duties, d + 1 = exactPulse clock period pulse
  bounded : pr ≤ 65534 ∧ ∀ d ∈ duties, d ≤ pr
  output : AtLeastMin clock period pulse →
    Close clock period (pr + 1) ∧ ∀ d ∈ duties, Close clock pulse (d + 1)

section Exact

variable {clock ns period pulse : Nat}

theorem exactPeriod_le (clock period : Nat) : exactPeriod clock period ≤ 65534 := by
  have hpos : 0 < exactPsc clock period := Nat.succ_pos _
  have hlt : ticks clock period / exactPsc clock period < MAX_PERIOD := by
    rw [Nat.div_lt_iff_lt_mul hpos, exactPsc, Nat.mul_add, Nat.mul_one, Nat.mul_comm]
    exact Nat.lt_div_mul_add (by decide)
  simp only [exactPeriod, MIN_PERIOD, MAX_PERIOD] at hlt ⊢
  omega

theorem exactPeriod_ge (clock period : Nat) : MIN_PERIOD ≤ exactPeriod clock period :=
  Nat.le_max_left _ _

theorem exactPulse_le (clock period pulse : Nat) :
    exactPulse clock period pulse ≤ exactPeriod clock period := by
  have hmin : MIN_PULSE ≤ exactPeriod clock period :=
    le_trans (by decide : MIN_PULSE ≤ MIN_PERIOD) (exactPeriod_ge clock period)
  rw [exactPulse]
  split_ifs
  · exact hmin
  · exact Nat.min_le_right _ _

theorem exactPulse_ge (clock period pulse : Nat) : MIN_PULSE ≤ exactPulse clock period pulse := by
  have hmin : MIN_PULSE ≤ exactPeriod clock period :=
    le_trans (by decide : MIN_PULSE ≤ MIN_PERIOD) (exactPeriod_ge clock period)
  rw [exactPulse]
  split_ifs with hlow
  · exact le_refl _
  · exact Nat.le_min.mpr ⟨Nat.not_lt.mp hlow, hmin⟩

theorem close_ticks : Close clock ns (ticks clock ns) := by
  have hdiv := Nat.div_add_mod (ns * clock) 1000000
  have hmod := Nat.mod_lt (ns * clock) (by decide : 0 < 1000000)
  rw [Close, ticks]
  omega

/-- Without a prescaler the counts are the rounded request. -/
theorem exactPeriod_close (hmin : AtLeastMin clock period pulse)
    (h : ticks clock period < MAX_PERIOD) : exactPeriod clock period = ticks clock period := by
  have hpsc : exactPsc clock period = 1 := by rw [exactPsc, Nat.div_eq_of_lt h]
  have hlow : MIN_PERIOD ≤ ticks clock period :=
    (Nat.le_div_iff_mul_le (by decide)).mpr hmin.1
  rw [exactPeriod, hpsc, Nat.div_one, Nat.max_eq_right hlow]

theorem exactPulse_close (hmin : AtLeastMin clock period pulse) (hle : pulse ≤ period)
    (h : ticks clock period < MAX_PERIOD) :
    exactPulse clock period pulse = ticks clock pulse := by
  have hpsc : exactPsc clock period = 1 := by rw [exactPsc, Nat.div_eq_of_lt h]
  have hlow : MIN_PULSE ≤ ticks clock pulse :=
    (Nat.le_div_iff_mul_le (by decide)).mpr hmin.2
  have hticks : ticks clock pulse ≤ ticks clock period :=
    Nat.div_le_div_right (Nat.mul_le_mul_right _ hle)
  rw [exactPulse, hpsc, Nat.div_one]
  rw [ticks] at hlow ⊢
  rw [if_neg (Nat.not_lt.mpr hlow), exactPeriod_close hmin h]
  exact Nat.min_eq_left hticks

/-- With a prescaler the period comes out too short by more than a tick. -/
theorem not_close_of_prescaled (h : MAX_PERIOD ≤ ticks clock period) :
    ¬Close clock period (exactPeriod clock period) := by
  have hpsc : 2 ≤ exactPsc clock period :=
    Nat.succ_le_succ ((Nat.le_div_iff_mul_le (by decide)).mpr (by rwa [Nat.one_mul]))
  have hhalf : ticks clock period / exactPsc clock period ≤ ticks clock period / 2 :=
    Nat.div_le_div_left hpsc (by decide)
  have hdiv := Nat.div_mul_le_self (period * clock) 1000000
  rw [← ticks] at hdiv
  rintro ⟨hclose, -⟩
  simp only [exactPeriod, MIN_PERIOD, MAX_PERIOD] at hclose h
  omega

/-- Registers that hold the exact sums meet the request just when no prescaler is asked for. -/
theorem meets_iff_of_exact {pr : Nat} {duties : List Nat} (hle : pulse ≤ period)
    (hpr : pr + 1 = exactPeriod clock period)
    (hduty : ∀ d ∈ duties, d + 1 = exactPulse clock period pulse) :
    Meets clock period pulse pr duties ↔
      (AtLeastMin clock period pulse → ticks clock period < MAX_PERIOD) := by
  constructor
  · intro hmeets hmin
    by_contra hticks
    have hclose := (hmeets.output hmin).1
    rw [hpr] at hclose
    exact not_close_of_prescaled (Nat.not_lt.mp hticks) hclose
  · intro hticks
    have hperiod := exactPeriod_le clock period
    have hpulse := exactPulse_le clock period pulse
    refine ⟨⟨hpr, hduty⟩, ⟨by omega, fun d hd => ?_⟩, fun hmin => ⟨?_, fun d hd => ?_⟩⟩
    · have hd := hduty d hd
      omega
    · rw [hpr, exactPeriod_close hmin (hticks hmin)]
      exact close_ticks
    · rw [hduty d hd, exactPulse_close hmin hle (hticks hmin)]
      exact close_ticks

end Exact

/-! ### The machine sums -/

section Machine

variable {clock : BitVec 64} {period pulse : BitVec 32}

/-- Every clock that the timers run on. -/
theorem timClock_le : ∀ sys_clk name, (timClock sys_clk name).toNat ≤ 120000 := by
  intro sys_clk name
  cases name <;> revert sys_clk <;> decide

theorem scaled_lt (ns : BitVec 32) (h : clock.toNat ≤ 120000) :
    ns.toNat * clock.toNat < 2 ^ 32 * 120001 := by
  have hns := ns.isLt
  exact Nat.mul_lt_mul_of_lt_of_le hns (by omega) (by omega)

theorem product_toNat (ns : BitVec 32) (h : clock.toNat ≤ 120000) :
    (ns.setWidth 64 * clock).toNat = ns.toNat * clock.toNat := by
  have hlt := scaled_lt ns h
  rw [BitVec.toNat_mul, BitVec.toNat_setWidth_of_le (by decide), Nat.mod_eq_of_lt (by omega)]

theorem periodTicks_toNat (h : clock.toNat ≤ 120000) :
    (periodTicks clock period).toNat = ticks clock.toNat period.toNat := by
  have hlt := scaled_lt period h
  have hmillion : (1000000 : BitVec 64).toNat = 1000000 := rfl
  rw [periodTicks, BitVec.toNat_setWidth, BitVec.toNat_udiv, product_toNat period h, hmillion,
    Nat.mod_eq_of_lt (by omega), ticks]

theorem psc_toNat (h : clock.toNat ≤ 120000) :
    (psc clock period).toNat = exactPsc clock.toNat period.toNat := by
  have hlt := (periodTicks clock period).isLt
  have hmax : (BitVec.ofNat 32 MAX_PERIOD).toNat = MAX_PERIOD := rfl
  have hone : (1 : BitVec 32).toNat = 1 := rfl
  have hquot : (periodTicks clock period).toNat / MAX_PERIOD < 2 ^ 32 - 1 := by
    simp only [MAX_PERIOD]
    omega
  rw [psc, BitVec.toNat_setWidth_of_le (by decide), BitVec.toNat_add, BitVec.toNat_udiv, hmax,
    hone, Nat.mod_eq_of_lt (by omega), periodTicks_toNat h, exactPsc]

theorem setPeriod_toNat (h : clock.toNat ≤ 120000) :
    (setPeriod clock period).toNat = exactPeriod clock.toNat period.toNat := by
  have hticks := (periodTicks clock period).isLt
  have hle : ticks clock.toNat period.toNat / exactPsc clock.toNat period.toNat ≤
      ticks clock.toNat period.toNat := Nat.div_le_self _ _
  have hscaled : (((periodTicks clock period).setWidth 64 / psc clock period).setWidth 32).toNat =
      ticks clock.toNat period.toNat / exactPsc clock.toNat period.toNat := by
    rw [periodTicks_toNat h] at hticks
    rw [BitVec.toNat_setWidth, BitVec.toNat_udiv, BitVec.toNat_setWidth_of_le (by decide),
      periodTicks_toNat h, psc_toNat h, Nat.mod_eq_of_lt (by omega)]
  have hmin : (BitVec.ofNat 32 MIN_PERIOD).toNat = MIN_PERIOD := rfl
  rw [setPeriod, exactPeriod]
  split_ifs with hlt
  · rw [BitVec.lt_def, hscaled, hmin] at hlt
    rw [hmin, Nat.max_eq_left (by omega)]
  · rw [BitVec.lt_def, hscaled, hmin] at hlt
    rw [hscaled, Nat.max_eq_right (by omega)]

theorem setPulse_toNat (h : clock.toNat ≤ 120000) :
    (setPulse clock period pulse).toNat = exactPulse clock.toNat period.toNat pulse.toNat := by
  have hlt := scaled_lt pulse h
  have hmillion : (1000000 : BitVec 64).toNat = 1000000 := rfl
  have hle : pulse.toNat * clock.toNat / exactPsc clock.toNat period.toNat ≤
      pulse.toNat * clock.toNat := Nat.div_le_self _ _
  have hscaled :
      ((pulse.setWidth 64 * clock / psc clock period / 1000000).setWidth 32).toNat =
        pulse.toNat * clock.toNat / exactPsc clock.toNat period.toNat / 1000000 := by
    rw [BitVec.toNat_setWidth, BitVec.toNat_udiv, BitVec.toNat_udiv, product_toNat pulse h,
      psc_toNat h, hmillion, Nat.mod_eq_of_lt (by omega)]
  have hmin : (BitVec.ofNat 32 MIN_PULSE).toNat = MIN_PULSE := rfl
  rw [setPulse, exactPulse]
  simp only [BitVec.lt_def, gt_iff_lt, hscaled, hmin, ← setPeriod_toNat h]
  split_ifs with hlow hhigh
  · exact hmin
  · exact (Nat.min_eq_right hhigh.le).symm
  · rw [hscaled, Nat.min_eq_left (Nat.not_lt.mp hhigh)]

theorem sub_one_toNat {x : BitVec 32} (h : 1 ≤ x.toNat) : (x - 1).toNat + 1 = x.toNat := by
  have hone : (1 : BitVec 32).toNat = 1 := rfl
  rw [BitVec.toNat_sub_of_le (BitVec.le_def.mpr (by rw [hone]; exact h)), hone,
    Nat.sub_add_cancel h]

theorem setPeriod_sub_one (h : clock.toNat ≤ 120000) :
    (setPeriod clock period - 1).toNat + 1 = exactPeriod clock.toNat period.toNat := by
  have hge := exactPeriod_ge clock.toNat period.toNat
  have hpos : 1 ≤ (setPeriod clock period).toNat := by
    rw [setPeriod_toNat h]
    exact le_trans (by decide) hge
  rw [sub_one_toNat hpos, setPeriod_toNat h]

theorem setPulse_sub_one (period pulse : BitVec 32) (h : clock.toNat ≤ 120000) :
    (setPulse clock period pulse - 1).toNat + 1 =
      exactPulse clock.toNat period.toNat pulse.toNat := by
  have hge := exactPulse_ge clock.toNat period.toNat pulse.toNat
  have hpos : 1 ≤ (setPulse clock period pulse).toNat := by
    rw [setPulse_toNat h]
    exact le_trans (by decide) hge
  rw [sub_one_toNat hpos, setPulse_toNat h]

end Machine

/-! ### The registers after a request -/

section Written

variable {pwm : PwmReg → BitVec 32} {name : PwmName} {channel : BitVec 8} {period pulse : BitVec 32}

theorem writeAll_apply (outs : List (Nat × PwmReg)) (v : BitVec 32) (r : PwmReg) :
    outs.foldl (fun pwm out => writeReg pwm out.2 v) pwm r =
      if r ∈ outs.map Prod.snd then v else pwm r := by
  induction outs generalizing pwm with
  | nil => rfl
  | cons out outs ih =>
    rw [List.foldl_cons, ih, List.map_cons, writeReg]
    by_cases hr : r = out.2
    · subst hr
      simp
    · simp only [Function.update_of_ne hr, List.mem_cons, hr, false_or]

theorem timerOutputs_duty {out : Nat × PwmReg} (h : out ∈ timerOutputs channel) :
    out.2 ≠ .TMRxPR := by
  have hmem := (List.mem_filter.mp h).1
  simp only [List.mem_cons, List.not_mem_nil, or_false] at hmem
  rcases hmem with rfl | rfl | rfl <;> decide

theorem periodReg_setRegs {ns ns' : BitVec 32} :
    (Ab32Pwm.mk (setRegs pwm name channel period pulse) name ns ns').periodReg =
      (period - 1).toNat := by
  have hnone : setRegs pwm .t3pwm channel period pulse .TMRxPR = period - 1 := by
    have hnot : PwmReg.TMRxPR ∉ (timerOutputs channel).map Prod.snd := fun h => by
      obtain ⟨out, hout, heq⟩ := List.mem_map.mp h
      exact timerOutputs_duty hout heq
    rw [setRegs]
    exact (writeAll_apply _ _ _).trans (by rw [if_neg hnot, writeReg, Function.update_self])
  cases name
  case t3pwm | t4pwm | t5pwm => exact congrArg BitVec.toNat hnone
  all_goals rfl

theorem duties_setRegs {ns ns' : BitVec 32} (h : (pulse - 1).toNat < 2 ^ 16) :
    ∀ d ∈ (Ab32Pwm.mk (setRegs pwm name channel period pulse) name ns ns').duties channel,
      d = (pulse - 1).toNat := by
  have hshift : ((pulse - 1) <<< 16).toNat / 2 ^ 16 = (pulse - 1).toNat := by
    rw [BitVec.toNat_shiftLeft, Nat.shiftLeft_eq, Nat.mod_eq_of_lt (by omega)]
    omega
  have hlow : (pulse - 1).toNat % 2 ^ 16 = (pulse - 1).toNat := Nat.mod_eq_of_lt h
  have htimer : ∀ out ∈ timerOutputs channel,
      setRegs pwm .t3pwm channel period pulse out.2 = pulse - 1 := fun out hout => by
    rw [setRegs]
    exact (writeAll_apply _ _ _).trans (if_pos (List.mem_map.mpr ⟨out, hout, rfl⟩))
  intro d hd
  cases name
  case t3pwm | t4pwm | t5pwm =>
    obtain ⟨out, hout, rfl⟩ := List.mem_map.mp hd
    exact congrArg BitVec.toNat (htimer out hout)
  case lpwm0 | lpwm2 => exact (List.mem_singleton.mp hd).trans hlow
  case lpwm1 | lpwm3 => exact (List.mem_singleton.mp hd).trans hshift

end Written

/-- A request comes out as `Meets` says exactly when it is below the minimum or its period has fewer
than `MAX_PERIOD` ticks: from there on `psc` divides the counts, and the hardware does not divide
its clock. -/
theorem pwm_cmd_set_meets (sys_clk : Fin sysclk_index.length) (pwm_obj : Ab32Pwm)
    (configuration : Configuration) (h : configuration.pulse ≤ configuration.period) :
    let clock := (timClock sys_clk pwm_obj.name).toNat
    let after := (drv_pwm_control sys_clk pwm_obj .PWM_CMD_SET configuration).2.1
    Meets clock configuration.period.toNat configuration.pulse.toNat after.periodReg
        (after.duties (configuration.channel.setWidth 8)) ↔
      (AtLeastMin clock configuration.period.toNat configuration.pulse.toNat →
        ticks clock configuration.period.toNat < MAX_PERIOD) := by
  have hclock := timClock_le sys_clk pwm_obj.name
  have hpulse := setPulse_sub_one configuration.period configuration.pulse hclock
  have hbound : (setPulse (timClock sys_clk pwm_obj.name) configuration.period configuration.pulse
      - 1).toNat < 2 ^ 16 := by
    have hle := le_trans (exactPulse_le _ _ configuration.pulse.toNat)
      (exactPeriod_le (timClock sys_clk pwm_obj.name).toNat configuration.period.toNat)
    omega
  refine meets_iff_of_exact (BitVec.le_def.mp h) ?_ fun d hd => ?_
  · exact (congrArg (· + 1) periodReg_setRegs).trans (setPeriod_sub_one hclock)
  · rw [duties_setRegs hbound d hd, hpulse]

/-- A period of 1 ms at 48 MHz has 48000 ticks. -/
theorem pwm_cmd_set_one_ms :
    let pwm_obj : Ab32Pwm := ⟨fun _ => 0, .t3pwm, 0, 0⟩
    let after := (drv_pwm_control SYSCLK_48M pwm_obj .PWM_CMD_SET ⟨1, 1000000, 500000, false⟩).2.1
    Meets (timClock SYSCLK_48M .t3pwm).toNat 1000000 500000 after.periodReg (after.duties 1) :=
  (pwm_cmd_set_meets SYSCLK_48M ⟨fun _ => 0, .t3pwm, 0, 0⟩ ⟨1, 1000000, 500000, false⟩
    (by decide)).mpr fun _ => by decide

/-- A period of 10 ms at 48 MHz: `psc` is 8, and the output has a period of 1.25 ms. -/
theorem long_period_lost :
    let pwm_obj : Ab32Pwm := ⟨fun _ => 0, .t3pwm, 0, 0⟩
    let after := (drv_pwm_control SYSCLK_48M pwm_obj .PWM_CMD_SET ⟨1, 10000000, 5000000, false⟩).2.1
    after.periodReg = 59999 ∧
      ¬Meets (timClock SYSCLK_48M .t3pwm).toNat 10000000 5000000 after.periodReg
        (after.duties 1) := by
  intro pwm_obj after
  have hpr : after.periodReg = 59999 := by decide +kernel
  refine ⟨hpr, fun hmeets => ?_⟩
  have hclose := (hmeets.output (by decide +kernel)).1
  rw [hpr] at hclose
  revert hclose
  decide +kernel

end Ab32Vg1.Drivers.Pwm
