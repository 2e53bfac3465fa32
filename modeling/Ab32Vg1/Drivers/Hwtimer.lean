import Ab32Vg1.Kernel.Def
import Ab32Vg1.ProofKit.Transition
import Mathlib.Logic.Function.Basic

/-! The hardware timers of `hwtimer.c` and `drv_hwtimer.c` that share the vector of TIM2, TIM4 and
TIM5. -/

namespace Ab32Vg1.Drivers

open Kernel ProofKit

def RT_EINVAL : Int := 10

inductive HwtimerMode
  | ONESHOT
  | PERIOD
  deriving DecidableEq, Repr

/-- Bits of `TMRxCON`: the timer counts, it raises the interrupt, and an overflow is pending. -/
def TMR_EN : BitVec 32 := 1 <<< 0

def TMR_TIE : BitVec 32 := 1 <<< 7

def TMR_PND : BitVec 32 := 1 <<< 9

/-- `rt_hwtimer_t` with its register, and whether it has a callback. Not in the code: the overflows of
the timer and the calls of the callback since it was last initialised or started. -/
structure Hwtimer where
  TMRxCON : BitVec 32
  overflow : Int
  cycles : Nat
  reload : Nat
  mode : HwtimerMode
  rx_indicate : Bool
  overflows : Nat
  calls : Nat
  deriving DecidableEq, Repr

namespace Hwtimer

/-- `timer_init`. -/
def timer_init (timer : Hwtimer) (state : Bool) : Hwtimer :=
  { timer with TMRxCON := if state then TMR_TIE else 0 }

/-- `timer_start`. -/
def timer_start (timer : Hwtimer) (opmode : HwtimerMode) : Hwtimer × Int :=
  if opmode ≠ .PERIOD then (timer, -RT_EINVAL)
  else ({ timer with TMRxCON := timer.TMRxCON ||| TMR_EN }, RT_EOK)

/-- `timer_stop`. -/
def timer_stop (timer : Hwtimer) : Hwtimer := { timer with TMRxCON := timer.TMRxCON &&& ~~~TMR_EN }

def rt_hwtimer_init (timer : Hwtimer) : Hwtimer :=
  let timer := { timer with mode := .ONESHOT, cycles := 0, overflow := 0, overflows := 0, calls := 0 }
  timer.timer_init true

/-- `rt_hwtimer_write` of a time that `timeout_calc` makes `i` cycles of; whether it is written. -/
def rt_hwtimer_write (timer : Hwtimer) (i : Nat) : Hwtimer × Bool :=
  let timer := { timer.timer_stop with overflow := 0, overflows := 0, calls := 0 }
  let timer := { timer with cycles := i, reload := i }
  let opm := if timer.cycles ≤ 1 ∧ timer.mode = .ONESHOT then .ONESHOT else .PERIOD
  let (timer, result) := timer.timer_start opm
  (timer, result = RT_EOK)

/-- `HWTIMER_CTRL_MODE_SET`. -/
def modeSet (timer : Hwtimer) (mode : HwtimerMode) : Hwtimer := { timer with mode := mode }

def _rt_device_hwtimer_isr (timer : Hwtimer) : Hwtimer :=
  let timer := { timer with overflow := (timer.overflow + 1).bmod (2 ^ 32) }
  let timer := if timer.cycles ≠ 0 then { timer with cycles := timer.cycles - 1 } else timer
  if timer.cycles = 0 then
    let timer := { timer with cycles := timer.reload }
    let timer := if timer.mode = .ONESHOT then timer.timer_stop else timer
    if timer.rx_indicate then { timer with calls := timer.calls + 1 } else timer
  else timer

/-- The timer counts and its overflow raises the interrupt. -/
def Runs (timer : Hwtimer) : Prop :=
  timer.TMRxCON &&& TMR_EN ≠ 0 ∧ timer.TMRxCON &&& TMR_TIE ≠ 0

instance (timer : Hwtimer) : Decidable timer.Runs := inferInstanceAs (Decidable (_ ∧ _))

/-- The hardware flags an overflow. -/
def overflowed (timer : Hwtimer) : Hwtimer :=
  { timer with TMRxCON := timer.TMRxCON ||| TMR_PND, overflows := timer.overflows + 1 }

/-- The part of the handler that serves a timer; `TMRxCPND` clears the flag. -/
def serve (timer : Hwtimer) : Hwtimer :=
  if timer.TMRxCON ≠ 0 then
    { timer with TMRxCON := timer.TMRxCON &&& ~~~TMR_PND }._rt_device_hwtimer_isr
  else timer

end Hwtimer

inductive Tim
  | TIM2
  | TIM4
  | TIM5
  deriving DecidableEq, Repr

/-- The timers that the board is built with (`BSP_USING_TIMx`), and their devices. -/
structure Hwtimers where
  BSP_USING : Tim → Bool
  obj : Tim → Hwtimer

inductive HwtimerStep
  | init (t : Tim)
  | start (t : Tim) (mode : HwtimerMode) (i : Nat)
  | stop (t : Tim)
  | overflow (ts : List Tim)
  deriving Repr

namespace Hwtimers

def set (c : Hwtimers) (t : Tim) (timer : Hwtimer) : Hwtimers :=
  { c with obj := Function.update c.obj t timer }

def timer2_4_5_isr (c : Hwtimers) : Hwtimers :=
  [Tim.TIM2, .TIM4, .TIM5].foldl
    (fun c t => if c.BSP_USING t then c.set t (c.obj t).serve else c) c

/-- A timer is initialised, set to a mode and started, or stopped; timers that run overflow, and then
their interrupt comes. -/
def step (c : Hwtimers) : HwtimerStep → Option Hwtimers
  | .init t => if c.BSP_USING t then some (c.set t (c.obj t).rt_hwtimer_init) else none
  | .start t mode i =>
    if c.BSP_USING t ∧ (c.obj t).TMRxCON ≠ 0 then
      some (c.set t (((c.obj t).modeSet mode).rt_hwtimer_write i).1)
    else none
  | .stop t =>
    if c.BSP_USING t ∧ (c.obj t).TMRxCON ≠ 0 then some (c.set t (c.obj t).timer_stop) else none
  | .overflow ts =>
    if ts ≠ [] ∧ ∀ t ∈ ts, c.BSP_USING t ∧ (c.obj t).Runs then
      some { c with obj := fun t => if t ∈ ts then (c.obj t).overflowed else c.obj t }.timer2_4_5_isr
    else none

/-- No timer is initialised. -/
def Off (c : Hwtimers) : Prop := ∀ t, (c.obj t).TMRxCON = 0

end Hwtimers

def hwtimerMachine : Machine Hwtimers HwtimerStep where
  start := Hwtimers.Off
  step c l c' := c.step l = some c'

/-- How many overflows make a timeout: a time below a count gives a reload of 0, and each overflow is
one. -/
def Hwtimer.period (timer : Hwtimer) : Nat := max 1 timer.reload

/-- The counter of overflows is right, the callback has come once in each period, and the one of a
one-shot timer once, after which the timer does not run. -/
structure Hwtimer.Counts (timer : Hwtimer) : Prop where
  overflow : timer.overflow = timer.overflows
  calls : timer.rx_indicate = true → timer.calls = timer.overflows / timer.period
  oneshot : timer.mode = .ONESHOT →
    timer.overflows ≤ timer.period ∧ (timer.overflows = timer.period → ¬ timer.Runs)

/-- Every initialised timer counts its own overflows. -/
def HwtimerContract (c : Hwtimers) : Prop :=
  ∀ t, c.BSP_USING t → (c.obj t).TMRxCON ≠ 0 → (c.obj t).Counts

/-- The interrupt finds that every initialised timer has overflowed, and fewer than `2 ^ 31 - 1` times
before. -/
def Hwtimers.Sound (c : Hwtimers) : HwtimerStep → Prop
  | .overflow ts =>
    ∀ t, c.BSP_USING t → (c.obj t).TMRxCON ≠ 0 → t ∈ ts ∧ (c.obj t).overflows + 1 < 2 ^ 31
  | _ => True

/-! ### One timer -/

namespace Hwtimer

variable {timer : Hwtimer}

/-- What a timer keeps while only its own overflows are served: `cycles` is what is left of the
period. -/
structure Inv (timer : Hwtimer) : Prop where
  overflow : timer.overflow = timer.overflows
  bound : timer.overflows < 2 ^ 31
  calls : timer.rx_indicate = true → timer.calls = timer.overflows / timer.period
  cycles : timer.Runs → timer.cycles = timer.reload - timer.overflows % timer.period
  oneshot : timer.mode = .ONESHOT →
    timer.overflows ≤ timer.period ∧ (timer.Runs → timer.overflows < timer.period)

theorem Inv.counts (h : timer.Inv) : timer.Counts :=
  ⟨h.overflow, h.calls, fun hm => ⟨(h.oneshot hm).1, fun heq hr =>
    Nat.ne_of_lt ((h.oneshot hm).2 hr) heq⟩⟩

theorem period_pos (timer : Hwtimer) : 0 < timer.period := Nat.le_max_left 1 _

theorem stopped_not_runs {timer : Hwtimer} {con : BitVec 32} (h : timer.TMRxCON = con &&& ~~~TMR_EN) :
    ¬ timer.Runs := by
  intro hr
  apply hr.1
  rw [h, BitVec.and_assoc, show ~~~TMR_EN &&& TMR_EN = 0#32 by decide]
  exact BitVec.and_zero

/-- A timer that has not overflowed since it was started or initialised. -/
theorem Inv.fresh (hoverflow : timer.overflow = 0) (hoverflows : timer.overflows = 0)
    (hcalls : timer.calls = 0) (hcycles : timer.Runs → timer.cycles = timer.reload) : timer.Inv where
  overflow := by rw [hoverflow, hoverflows]; rfl
  bound := by rw [hoverflows]; decide
  calls _ := by rw [hcalls, hoverflows, Nat.zero_div]
  cycles hr := by rw [hcycles hr, hoverflows, Nat.zero_mod, Nat.sub_zero]
  oneshot _ := by
    rw [hoverflows]
    exact ⟨Nat.zero_le _, fun _ => timer.period_pos⟩

theorem init_inv (timer : Hwtimer) : timer.rt_hwtimer_init.Inv :=
  .fresh rfl rfl rfl fun hr => absurd (show TMR_TIE &&& TMR_EN = 0 by decide) hr.1

theorem write_inv (timer : Hwtimer) (i : Nat) : (timer.rt_hwtimer_write i).1.Inv := by
  simp only [rt_hwtimer_write, timer_start]
  split
  · exact .fresh rfl rfl rfl fun _ => rfl
  · exact .fresh rfl rfl rfl fun _ => rfl

/-- A timer that runs no more keeps its counts. -/
theorem Inv.stop (h : timer.Inv) : timer.timer_stop.Inv :=
  have hr : ¬ timer.timer_stop.Runs := stopped_not_runs rfl
  ⟨h.overflow, h.bound, h.calls, fun hr' => absurd hr' hr, fun hm =>
    ⟨(h.oneshot hm).1, fun hr' => absurd hr' hr⟩⟩

/-- The flag of an overflow is no part of what makes the timer run. -/
theorem pnd_cleared (con : BitVec 32) {bit : BitVec 32} (hbit : TMR_PND &&& bit = 0#32)
    (hnot : ~~~TMR_PND &&& bit = bit) : (con ||| TMR_PND) &&& ~~~TMR_PND &&& bit = con &&& bit := by
  rw [BitVec.and_assoc, hnot, BitVec.and_or_distrib_right, hbit]
  exact BitVec.or_zero

/-- A timer that has overflowed, with the flag cleared. -/
def acknowledged (timer : Hwtimer) : Hwtimer :=
  { timer with
    TMRxCON := (timer.TMRxCON ||| TMR_PND) &&& ~~~TMR_PND, overflows := timer.overflows + 1 }

theorem acknowledged_runs : timer.acknowledged.Runs ↔ timer.Runs := by
  rw [Runs, Runs, acknowledged, pnd_cleared _ (by decide) (by decide),
    pnd_cleared _ (by decide) (by decide)]

theorem serve_overflowed (timer : Hwtimer) :
    timer.overflowed.serve = timer.acknowledged._rt_device_hwtimer_isr := by
  rw [serve, if_pos]
  · rfl
  · intro h
    have hbit : (timer.TMRxCON ||| TMR_PND) &&& TMR_PND = 0#32 := by
      rw [show timer.TMRxCON ||| TMR_PND = 0 from h]
      exact BitVec.zero_and
    have hpnd := congrArg (·.getLsbD 9) hbit
    simp [TMR_PND] at hpnd

/-- The count that is left runs out at the end of a period. -/
theorem Inv.cycles_out (h : timer.Inv) (hr : timer.Runs) :
    timer.cycles - 1 = 0 ↔ timer.period ∣ timer.overflows + 1 := by
  have hc := h.cycles hr
  have hlt := Nat.mod_lt timer.overflows timer.period_pos
  have hp : timer.period = max 1 timer.reload := rfl
  obtain ⟨p, hp1⟩ : ∃ p, timer.period = p + 1 := Nat.exists_eq_add_one.mpr timer.period_pos
  rw [Nat.dvd_iff_mod_eq_zero]
  rw [hp1] at hc hlt hp ⊢
  rw [Nat.succ_mod_succ_eq_zero_iff]
  omega

/-- Between the ends of periods an overflow leaves one count less. -/
theorem Inv.cycles_left (h : timer.Inv) (hr : timer.Runs)
    (hd : ¬ timer.period ∣ timer.overflows + 1) :
    timer.cycles - 1 = timer.reload - (timer.overflows + 1) % timer.period := by
  have hc := h.cycles hr
  have hlt := Nat.mod_lt timer.overflows timer.period_pos
  have hsum : timer.overflows + 1 =
      timer.overflows % timer.period + 1 + timer.period * (timer.overflows / timer.period) := by
    have := Nat.mod_add_div timer.overflows timer.period
    omega
  have hne : timer.overflows % timer.period + 1 ≠ timer.period := by
    intro heq
    apply hd
    rw [hsum, heq]
    exact ⟨1 + timer.overflows / timer.period, by ring⟩
  rw [hsum, Nat.add_mul_mod_self_left, Nat.mod_eq_of_lt (by omega)]
  omega

theorem isr_eq (timer : Hwtimer) :
    timer._rt_device_hwtimer_isr =
      { timer with
        overflow := (timer.overflow + 1).bmod (2 ^ 32)
        cycles := if timer.cycles - 1 = 0 then timer.reload else timer.cycles - 1
        TMRxCON :=
          if timer.cycles - 1 = 0 ∧ timer.mode = .ONESHOT then timer.TMRxCON &&& ~~~TMR_EN
          else timer.TMRxCON
        calls :=
          if timer.cycles - 1 = 0 ∧ timer.rx_indicate = true then timer.calls + 1 else timer.calls } := by
  have hcycles : (if timer.cycles ≠ 0 then timer.cycles - 1 else timer.cycles) = timer.cycles - 1 := by
    split <;> omega
  simp only [_rt_device_hwtimer_isr, timer_stop]
  by_cases h0 : timer.cycles = 0
  · by_cases hm : timer.mode = .ONESHOT <;> by_cases hrx : timer.rx_indicate = true <;>
      simp [h0, hm, hrx]
  · by_cases h1 : timer.cycles - 1 = 0
    · by_cases hm : timer.mode = .ONESHOT <;> by_cases hrx : timer.rx_indicate = true <;>
        simp [h0, h1, hm, hrx]
    · simp [h0, h1]

/-- One overflow of the timer, served. -/
theorem Inv.serve (h : timer.Inv) (hr : timer.Runs) (hb : timer.overflows + 1 < 2 ^ 31) :
    timer.overflowed.serve.Inv := by
  have hout := h.cycles_out hr
  have hover : (timer.overflow + 1).bmod (2 ^ 32) = ((timer.overflows + 1 : Nat) : Int) := by
    rw [h.overflow]
    have hb : timer.overflows + 1 < 2147483648 := hb
    simp only [Int.bmod_def]
    push_cast
    omega
  have hp : timer.period = max 1 timer.reload := rfl
  have hruns : timer.overflowed.serve.Runs →
      ¬ (timer.cycles - 1 = 0 ∧ timer.mode = .ONESHOT) := by
    intro hr' hstop
    have hcon : timer.overflowed.serve.TMRxCON = timer.acknowledged.TMRxCON &&& ~~~TMR_EN := by
      rw [serve_overflowed, isr_eq]
      exact if_pos hstop
    exact stopped_not_runs hcon hr'
  rw [serve_overflowed, isr_eq] at hruns ⊢
  refine ⟨hover, hb, fun hrx => ?_, fun hr' => ?_, fun hm => ?_⟩
  · show (if timer.cycles - 1 = 0 ∧ timer.rx_indicate = true then timer.calls + 1 else timer.calls) =
      (timer.overflows + 1) / timer.period
    have hrx : timer.rx_indicate = true := hrx
    rw [Nat.succ_div, h.calls hrx]
    simp only [hrx, and_true, hout]
    split <;> rfl
  · show (if timer.cycles - 1 = 0 then timer.reload else timer.cycles - 1) =
      timer.reload - (timer.overflows + 1) % timer.period
    split
    · next hzero => rw [Nat.mod_eq_zero_of_dvd (hout.mp hzero), Nat.sub_zero]
    · next hmore => exact h.cycles_left hr fun hd => hmore (hout.mpr hd)
  · have hlt := (h.oneshot hm).2 hr
    refine ⟨hlt, fun hr' => Nat.lt_of_le_of_ne hlt fun heq => ?_⟩
    have heq : timer.overflows + 1 = timer.period := heq
    exact hruns hr' ⟨hout.mpr (by rw [heq]), hm⟩

end Hwtimer

/-! ### Runs -/

namespace Hwtimers

variable {c c' : Hwtimers} {l : HwtimerStep} {t : Tim}

/-- One turn of the handler. -/
def serveOne (c : Hwtimers) (t : Tim) : Hwtimers :=
  if c.BSP_USING t then c.set t (c.obj t).serve else c

@[simp] theorem serveOne_using (c : Hwtimers) (t : Tim) : (c.serveOne t).BSP_USING = c.BSP_USING := by
  rw [serveOne]
  split <;> rfl

theorem serveOne_self (c : Hwtimers) (t : Tim) :
    (c.serveOne t).obj t = if c.BSP_USING t then (c.obj t).serve else c.obj t := by
  rw [serveOne]
  split
  · exact Function.update_self ..
  · rfl

theorem serveOne_of_ne (c : Hwtimers) {t u : Tim} (hne : u ≠ t) : (c.serveOne t).obj u = c.obj u := by
  rw [serveOne]
  split
  · exact Function.update_of_ne hne ..
  · rfl

/-- The handler serves each timer once. -/
theorem isr_obj (c : Hwtimers) (t : Tim) :
    c.timer2_4_5_isr.obj t = if c.BSP_USING t then (c.obj t).serve else c.obj t := by
  show (((c.serveOne .TIM2).serveOne .TIM4).serveOne .TIM5).obj t = _
  cases t with
  | TIM2 => rw [serveOne_of_ne _ (by decide), serveOne_of_ne _ (by decide), serveOne_self]
  | TIM4 =>
    rw [serveOne_of_ne _ (by decide), serveOne_self, serveOne_using, serveOne_of_ne _ (by decide)]
  | TIM5 =>
    rw [serveOne_self, serveOne_using, serveOne_using, serveOne_of_ne _ (by decide),
      serveOne_of_ne _ (by decide)]

theorem isr_using (c : Hwtimers) : c.timer2_4_5_isr.BSP_USING = c.BSP_USING := by
  show (((c.serveOne .TIM2).serveOne .TIM4).serveOne .TIM5).BSP_USING = _
  rw [serveOne_using, serveOne_using, serveOne_using]

/-- Every timer that is initialised keeps its counts. -/
def Inv (c : Hwtimers) : Prop := ∀ t, c.BSP_USING t → (c.obj t).TMRxCON ≠ 0 → (c.obj t).Inv

/-- One timer changes. -/
theorem Inv.set {timer : Hwtimer} (h : c.Inv) (ht : timer.Inv) : (c.set t timer).Inv := by
  intro u hu hcon
  by_cases heq : u = t
  · subst heq
    rw [show (c.set u timer).obj u = timer from Function.update_self ..]
    exact ht
  · rw [show (c.set t timer).obj u = c.obj u from Function.update_of_ne heq ..] at hcon ⊢
    exact h u hu hcon

theorem Inv.overflow {ts : List Tim} (h : c.Inv) (hl : c.Sound (.overflow ts))
    (hs : c.step (.overflow ts) = some c') : c'.Inv := by
  simp only [step] at hs
  split at hs
  · next hruns =>
    cases hs
    intro t ht hcon
    rw [isr_using] at ht
    have ht : c.BSP_USING t = true := ht
    rw [isr_obj, if_pos ht] at hcon ⊢
    dsimp only at hcon ⊢
    by_cases hmem : t ∈ ts
    · have hrun := (hruns.2 t hmem).2
      have hon : (c.obj t).TMRxCON ≠ 0 := by
        intro hzero
        exact hrun.1 (by rw [hzero]; exact BitVec.zero_and)
      rw [if_pos hmem]
      exact (h t ht hon).serve hrun (hl t ht hon).2
    · -- A timer that has not overflowed is off, and is not served.
      rw [if_neg hmem] at hcon ⊢
      by_cases hon : (c.obj t).TMRxCON = 0
      · exact absurd (show (c.obj t).serve.TMRxCON = 0 by rw [Hwtimer.serve, if_neg (not_not.mpr hon), hon]) hcon
      · exact absurd (hl t ht hon).1 hmem
  · cases hs

theorem Inv.step (h : c.Inv) (hl : c.Sound l) (hs : c.step l = some c') : c'.Inv := by
  cases l with
  | init t =>
    simp only [Hwtimers.step] at hs
    split at hs
    · cases hs
      exact h.set (Hwtimer.init_inv _)
    · cases hs
  | start t mode i =>
    simp only [Hwtimers.step] at hs
    split at hs
    · cases hs
      exact h.set (Hwtimer.write_inv _ _)
    · cases hs
  | stop t =>
    simp only [Hwtimers.step] at hs
    split at hs
    · next hon =>
      cases hs
      exact h.set (h t hon.1 hon.2).stop
    · cases hs
  | overflow ts => exact h.overflow hl hs

end Hwtimers

open Hwtimers

theorem hwtimers_count {c : Hwtimers} (hr : (hwtimerMachine.restrict Sound).Reachable c) :
    HwtimerContract c := by
  have hinv : c.Inv := by
    apply hr.invariant
    · intro c hoff t _ hcon
      exact absurd (hoff t) hcon
    · rintro c l c' - h ⟨hl, hs⟩
      exact h.step hl hs
  exact fun t ht hcon => (hinv t ht hcon).counts

/-- A board with the three timers and a callback for each. -/
def threeTimers : Hwtimers where
  BSP_USING _ := true
  obj _ := ⟨0, 0, 0, 0, .ONESHOT, true, 0, 0⟩

instance Hwtimers.decidableSound (c : Hwtimers) (l : HwtimerStep) : Decidable (c.Sound l) :=
  match l with
  | .overflow ts =>
    decidable_of_iff (∀ t ∈ [Tim.TIM2, .TIM4, .TIM5], c.BSP_USING t → (c.obj t).TMRxCON ≠ 0 →
        t ∈ ts ∧ (c.obj t).overflows + 1 < 2 ^ 31)
      ⟨fun h t => h t (by cases t <;> decide), fun h t _ => h t⟩
  | .init _ | .start _ _ _ | .stop _ => isTrue trivial

/-- The steps that meet the condition. -/
def hwtimerStepSound (c : Hwtimers) (l : HwtimerStep) : Option Hwtimers :=
  if c.Sound l then c.step l else none

theorem hwtimerStepSound_step {c c' : Hwtimers} {l : HwtimerStep} (h : hwtimerStepSound c l = some c') :
    (hwtimerMachine.restrict Sound).step c l c' := by
  rw [hwtimerStepSound] at h
  split at h
  · next hl => exact ⟨hl, h⟩
  · cases h

/-- Two timers that overflow together, one of them one-shot. -/
def twoTogether : List HwtimerStep :=
  [.init .TIM2, .start .TIM2 .PERIOD 2, .overflow [.TIM2], .overflow [.TIM2], .overflow [.TIM2],
    .init .TIM4, .start .TIM4 .ONESHOT 2, .overflow [.TIM4, .TIM2], .overflow [.TIM2, .TIM4]]

theorem hwtimers_count_together : ∃ c,
    Machine.runs hwtimerStepSound threeTimers twoTogether = some c ∧
      (c.obj .TIM2).calls = 2 ∧ (c.obj .TIM4).calls = 1 ∧ HwtimerContract c := by
  have hrun : ∃ c, Machine.runs hwtimerStepSound threeTimers twoTogether = some c ∧
      (c.obj .TIM2).calls = 2 ∧ (c.obj .TIM4).calls = 1 := by
    decide +kernel
  obtain ⟨c, hc, h2, h4⟩ := hrun
  exact ⟨c, hc, h2, h4, hwtimers_count
    ((Machine.Reachable.start fun _ => rfl).runs (fun _ _ _ => hwtimerStepSound_step) hc)⟩

/-- Two timers are started and one of them overflows: the other one has counted it. -/
theorem hwtimers_miscount : ∃ c, hwtimerMachine.Reachable c ∧ (c.obj .TIM4).overflows = 0 ∧
    (c.obj .TIM4).overflow = 1 ∧ ¬ HwtimerContract c := by
  have hrun : ∃ c, Machine.runs Hwtimers.step threeTimers
      [.init .TIM2, .start .TIM2 .PERIOD 1, .init .TIM4, .start .TIM4 .PERIOD 5, .overflow [.TIM2]] =
        some c ∧ c.BSP_USING .TIM4 = true ∧ (c.obj .TIM4).TMRxCON ≠ 0 ∧
      (c.obj .TIM4).overflows = 0 ∧ (c.obj .TIM4).overflow = 1 := by
    decide +kernel
  obtain ⟨c, hc, hu, hon, h0, h1⟩ := hrun
  refine ⟨c, (Machine.Reachable.start fun _ => rfl).runs (fun _ _ _ hs => hs) hc, h0, h1, fun h => ?_⟩
  have hcount := (h .TIM4 hu hon).overflow
  rw [h0, h1] at hcount
  cases hcount

end Ab32Vg1.Drivers
