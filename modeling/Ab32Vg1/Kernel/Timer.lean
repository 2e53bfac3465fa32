import Ab32Vg1.Kernel.Def
import Ab32Vg1.ProofKit.StableInsert
import Ab32Vg1.ProofKit.Transition
import Mathlib.Logic.Function.Basic

/-! The timers of `timer.c`.  The skip list has one level, so each list of timers is a plain list;
a check in the tick interrupt runs the timeout functions of the timers that are due. -/

namespace Ab32Vg1.Kernel

open ProofKit

/-- A timer, named by its address. -/
abbrev TimerId := Nat

/-- `struct rt_timer`, with the bits of its flag. -/
structure Timer where
  /-- `RT_TIMER_FLAG_ACTIVATED` -/
  activated : Bool
  /-- `RT_TIMER_FLAG_PERIODIC` -/
  periodic : Bool
  /-- `RT_TIMER_FLAG_SOFT_TIMER` -/
  soft : Bool
  timeout_tick : Nat
  init_tick : Nat
  deriving DecidableEq, Repr

/-- The tick, the timers and the lists they are in; `list` is the local list of a check that runs a
timeout function. -/
structure Timers where
  rt_tick : Nat
  timers : TimerId → Timer
  rt_timer_list : List TimerId
  rt_soft_timer_list : List TimerId
  list : List TimerId

/-- The unsigned difference shows a tick that has come. -/
def tickReached (current_tick timeout_tick : Nat) : Bool :=
  sub32 current_tick timeout_tick < RT_TICK_MAX / 2

namespace Timers

def setTimer (s : Timers) (t : TimerId) (f : Timer → Timer) : Timers :=
  { s with timers := Function.update s.timers t (f (s.timers t)) }

/-- A timer leaves the list that it is in. -/
def _rt_timer_remove (s : Timers) (t : TimerId) : Timers :=
  { s with
    rt_timer_list := s.rt_timer_list.filter (· ≠ t)
    rt_soft_timer_list := s.rt_soft_timer_list.filter (· ≠ t)
    list := s.list.filter (· ≠ t) }

/-- Whether the search of `rt_timer_start` for the place of `timer` stops before `t`. -/
def stopsAt (timer t : Timer) : Bool :=
  if sub32 t.timeout_tick timer.timeout_tick = 0 then false
  else sub32 t.timeout_tick timer.timeout_tick < RT_TICK_MAX / 2

def insert (s : Timers) (t : TimerId) (timer_list : List TimerId) : List TimerId :=
  insertStable (fun u => stopsAt (s.timers t) (s.timers u)) t timer_list

/-- `rt_timer_start` up to its wakeup of the soft timer thread. -/
def rt_timer_start (s : Timers) (t : TimerId) : Option Timers := do
  let s := s._rt_timer_remove t
  let s := s.setTimer t fun timer => { timer with activated := false }
  RT_ASSERT ((s.timers t).init_tick < RT_TICK_MAX / 2)
  let s := s.setTimer t fun timer =>
    { timer with timeout_tick := add32 s.rt_tick timer.init_tick }
  let s :=
    if (s.timers t).soft then { s with rt_soft_timer_list := s.insert t s.rt_soft_timer_list }
    else { s with rt_timer_list := s.insert t s.rt_timer_list }
  return s.setTimer t fun timer => { timer with activated := true }

/-- The critical section of `rt_timer_stop`. -/
def stopChecked (s : Timers) (t : TimerId) : Timers :=
  (s._rt_timer_remove t).setTimer t fun timer => { timer with activated := false }

def rt_timer_stop (s : Timers) (t : TimerId) : Timers × Int :=
  if (s.timers t).activated = false then (s, -RT_ERROR) else (s.stopChecked t, RT_EOK)

/-- `RT_TIMER_CTRL_SET_TIME` -/
def rt_timer_control_set_time (s : Timers) (t : TimerId) (time : Nat) : Timers :=
  s.setTimer t fun timer => { timer with init_tick := time }

/-- The timer that the loop of `rt_timer_check` takes next. -/
def nextDue (s : Timers) (current_tick : Nat) : Option TimerId :=
  match s.rt_timer_list with
  | [] => none
  | t :: _ => if tickReached current_tick (s.timers t).timeout_tick then some t else none

/-- The loop of `rt_timer_check` up to its call of the timeout function. -/
def takeDue (s : Timers) (t : TimerId) : Timers :=
  let s := s._rt_timer_remove t
  let s :=
    if (s.timers t).periodic then s else s.setTimer t fun timer => { timer with activated := false }
  { s with list := t :: s.list }

/-- Whether the loop of `rt_timer_check` starts the timer again. -/
def startsAgain (s : Timers) (t : TimerId) : Bool :=
  s.list ≠ [] ∧ (s.timers t).periodic ∧ (s.timers t).activated

/-- The loop of `rt_timer_check` after its call of the timeout function. -/
def afterTimeout (s : Timers) (t : TimerId) : Option Timers :=
  if s.list = [] then some s
  else
    let s' := s._rt_timer_remove t
    if s.startsAgain t then
      (s'.setTimer t fun timer => { timer with activated := false }).rt_timer_start t
    else some s'

end Timers

/-! ### The machine -/

/-- Where the tick interrupt stands: `checking` at the head of the loop of `rt_timer_check`,
`calling` in the timeout function of a timer. -/
inductive TimerPhase where
  | waiting
  | ticked
  | checking (current_tick : Nat)
  | calling (t : TimerId)
  deriving DecidableEq, Repr

/-- What happened to a timer, at which of all ticks since the first, with its period. -/
inductive TimerEvent where
  | started (t : TimerId) (at_tick period : Nat)
  | stopped (t : TimerId)
  | fired (t : TimerId) (at_tick : Nat) (again : Option Nat)
  deriving DecidableEq, Repr

/-- When a timer has to fire next, and its period, from a log with its newest entry first. -/
@[grind] def armed (t : TimerId) : List TimerEvent → Option (Nat × Nat)
  | [] => none
  | .started u at_tick period :: log =>
    if u = t then some (at_tick + period, period) else armed t log
  | .stopped u :: log => if u = t then none else armed t log
  | .fired u at_tick again :: log =>
    if u = t then again.map fun period => (at_tick + period, period) else armed t log

/-- The ticks at which the timer fired, the newest first. -/
@[grind] def firings (t : TimerId) : List TimerEvent → List Nat
  | [] => []
  | .fired u at_tick _ :: log => if u = t then at_tick :: firings t log else firings t log
  | _ :: log => firings t log

/-- The timers, with the number of ticks since the first, which does not wrap, the log, and the
order in which the timers were started. -/
structure TimerSystem where
  store : Timers
  now : Nat
  phase : TimerPhase
  log : List TimerEvent
  starts : Nat
  startOrder : TimerId → Nat

/-- Timeout functions are steps between `turn` and `returns`.  In `stopLate` a caller of
`rt_timer_stop` goes on that was interrupted after it had seen the timer active. -/
inductive TimerStep where
  | start (t : TimerId)
  | stop (t : TimerId)
  | stopLate (t : TimerId)
  | setTime (t : TimerId) (time : Nat)
  | tick
  | check
  | turn
  | returns
  deriving DecidableEq, Repr

/-- The periods that a timer may have. -/
def ValidPeriod (period : Nat) : Prop := 1 ≤ period ∧ period ≤ RT_TICK_MAX / 2 - 1

instance (period : Nat) : Decidable (ValidPeriod period) :=
  inferInstanceAs (Decidable (_ ∧ _))

namespace TimerSystem

def timer (c : TimerSystem) (t : TimerId) : Timer := c.store.timers t

def start (c : TimerSystem) (t : TimerId) : Option TimerSystem := do
  let store ← c.store.rt_timer_start t
  return { c with
    store := store
    log := .started t c.now (c.timer t).init_tick :: c.log
    starts := c.starts + 1
    startOrder := Function.update c.startOrder t c.starts }

/-- The log has the stops of active timers. -/
def stopped (c : TimerSystem) (t : TimerId) (store : Timers) : TimerSystem :=
  { c with
    store := store
    log := if (c.timer t).activated then .stopped t :: c.log else c.log }

def stop (c : TimerSystem) (t : TimerId) : TimerSystem :=
  c.stopped t (c.store.rt_timer_stop t).1

def stopLate (c : TimerSystem) (t : TimerId) : TimerSystem := c.stopped t (c.store.stopChecked t)

def setTime (c : TimerSystem) (t : TimerId) (time : Nat) : Option TimerSystem :=
  if (c.timer t).activated = false ∧ ValidPeriod time then
    some { c with store := c.store.rt_timer_control_set_time t time }
  else none

def tick (c : TimerSystem) : Option TimerSystem :=
  if c.phase = .waiting then
    some { c with
      store := { c.store with rt_tick := add32 c.store.rt_tick 1 }
      now := c.now + 1
      phase := .ticked }
  else none

def check (c : TimerSystem) : Option TimerSystem :=
  if c.phase = .ticked then some { c with phase := .checking c.store.rt_tick } else none

/-- One turn of the loop calls a timeout function, or is the last one. -/
def turn (c : TimerSystem) : Option TimerSystem :=
  match c.phase with
  | .checking current_tick =>
    match c.store.nextDue current_tick with
    | some t =>
      some { c with
        store := c.store.takeDue t
        phase := .calling t
        log := .fired t c.now (if (c.timer t).periodic then some (c.timer t).init_tick else none) ::
          c.log }
    | none => some { c with phase := .waiting }
  | _ => none

def returns (c : TimerSystem) : Option TimerSystem :=
  match c.phase with
  | .calling t => do
    let store ← c.store.afterTimeout t
    return { c with
      store := store
      phase := .checking store.rt_tick
      starts := c.starts + 1
      startOrder := if c.store.startsAgain t then Function.update c.startOrder t c.starts
        else c.startOrder }
  | _ => none

def step (c : TimerSystem) : TimerStep → Option TimerSystem
  | .start t => c.start t
  | .stop t => some (c.stop t)
  | .stopLate t => some (c.stopLate t)
  | .setTime t time => c.setTime t time
  | .tick => c.tick
  | .check => c.check
  | .turn => c.turn
  | .returns => c.returns

/-- The timers that the check has to take. -/
def dueCount (c : TimerSystem) : Nat :=
  (c.store.rt_timer_list.filter fun t => tickReached c.store.rt_tick (c.timer t).timeout_tick).length

/-- Timers that were initialised, at any tick. -/
structure Fresh (c : TimerSystem) : Prop where
  rt_tick : c.store.rt_tick = c.now % 2 ^ 32
  period : ∀ t, ValidPeriod (c.timer t).init_tick
  activated : ∀ t, (c.timer t).activated = false
  lists : c.store.rt_timer_list = [] ∧ c.store.rt_soft_timer_list = [] ∧ c.store.list = []
  phase : c.phase = .waiting
  log : c.log = []

end TimerSystem

def timerMachine : Machine TimerSystem TimerStep where
  start := TimerSystem.Fresh
  step c l c' := c.step l = some c'

/-- Nobody started or stopped the timer. -/
def Undisturbed (t : TimerId) (log : List TimerEvent) : Prop :=
  (∀ at_tick period, .started t at_tick period ∉ log) ∧ .stopped t ∉ log

/-- The list is in order, and every timer fires when it has to: `waiting` is the time between two
checks. -/
structure TimerContract (c : TimerSystem) : Prop where
  rt_tick : c.store.rt_tick = c.now % 2 ^ 32
  order : c.store.rt_timer_list.Pairwise fun t u =>
    sub32 (c.timer u).timeout_tick (c.timer t).timeout_tick < RT_TICK_MAX / 2 ∧
      ((c.timer u).timeout_tick = (c.timer t).timeout_tick → c.startOrder t < c.startOrder u)
  fired : ∀ late t at_tick again early, c.log = late ++ .fired t at_tick again :: early →
    ∃ period, armed t early = some (at_tick, period)
  one_shot : ∀ late t at_tick period early, c.log = late ++ .started t at_tick period :: early →
    Undisturbed t late → (c.timer t).soft = false → (c.timer t).periodic = false →
      c.phase = .waiting → firings t late = if at_tick + period ≤ c.now then [at_tick + period] else []
  periodic : ∀ late t at_tick period early, c.log = late ++ .started t at_tick period :: early →
    Undisturbed t late → (c.timer t).soft = false → (c.timer t).periodic = true →
      c.phase = .waiting → firings t late =
        ((List.range ((c.now - at_tick) / period)).map fun k => at_tick + (k + 1) * period).reverse
  stopped : ∀ late t early, c.log = late ++ .stopped t :: early → Undisturbed t late →
    firings t late = []
  none_due : c.phase = .waiting → ∀ t ∈ c.store.rt_timer_list,
    tickReached c.store.rt_tick (c.timer t).timeout_tick = false
  ends : ∀ l c', timerMachine.step c l c' → l ≠ .tick → c'.dueCount ≤ c.dueCount ∧
    (l = .turn → c'.phase = .waiting ∨ c'.dueCount < c.dueCount)

end Ab32Vg1.Kernel
