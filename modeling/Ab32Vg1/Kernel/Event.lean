import Ab32Vg1.Kernel.Waiting
import Ab32Vg1.ProofKit.Signals

/-! The event of `ipc.c`: a send walks the whole list of waiting threads, and what it leaves there
is not satisfied. -/

namespace Ab32Vg1.Kernel

open ProofKit Rtos

def RT_EINVAL : Int := 10

def RT_EVENT_FLAG_AND : BitVec 8 := 1

def RT_EVENT_FLAG_OR : BitVec 8 := 2

def RT_EVENT_FLAG_CLEAR : BitVec 8 := 4

/-- `struct rt_event`; `suspend_thread` names its list of waiting threads. -/
structure Event where
  set : BitVec 32
  suspend_thread : Nat
  flag : IpcFlag
  deriving DecidableEq, Repr

/-- What `rt_event_send` does.  `resumed` is not in the code: the threads that it resumes, each with
the event set that its condition was compared with. -/
structure EventSent where
  os : Rtos
  event : Event
  err : Int
  need_schedule : Bool
  resumed : List (Tid × BitVec 32)

namespace Event

/-- A thread whose condition is satisfied is resumed. -/
def resume (ev : Event) (s : Rtos) (thread : Tid) : Option (Rtos × Event) := do
  let th := s.threads thread
  let ev :=
    if th.event_info &&& RT_EVENT_FLAG_CLEAR ≠ 0 then { ev with set := ev.set &&& ~~~th.event_set }
    else ev
  let (s, _) ← s.rt_thread_resume thread
  return (s, ev)

/-- The loop of `rt_event_send`.  The list is read from its node `n` on; the node that the loop has
passed may leave it. -/
def sendLoop : (n : List Tid) → (ev : Event) → (s : Rtos) → (need_schedule : Bool) → Option EventSent
  | [], ev, s, need_schedule => some ⟨s, ev, RT_EOK, need_schedule, []⟩
  | thread :: next, ev, s, need_schedule =>
    let th := s.threads thread
    if th.event_info &&& RT_EVENT_FLAG_AND ≠ 0 then
      if th.event_set &&& ev.set = th.event_set then do
        let (s, ev') ← ev.resume s thread
        let r ← sendLoop next ev' s true
        return { r with resumed := (thread, ev.set) :: r.resumed }
      else sendLoop next ev s need_schedule
    else if th.event_info &&& RT_EVENT_FLAG_OR ≠ 0 then
      if th.event_set &&& ev.set ≠ 0 then do
        let s := s.setThread thread fun th => { th with event_set := th.event_set &&& ev.set }
        let (s, ev') ← ev.resume s thread
        let r ← sendLoop next ev' s true
        return { r with resumed := (thread, ev.set) :: r.resumed }
      else sendLoop next ev s need_schedule
    else some ⟨s, ev, -RT_EINVAL, false, []⟩

/-- `rt_event_send` up to its call of `rt_schedule`. -/
def rt_event_send (ev : Event) (s : Rtos) (set : BitVec 32) : Option EventSent :=
  if set = 0 then some ⟨s, ev, -RT_ERROR, false, []⟩
  else
    let ev := { ev with set := ev.set ||| set }
    sendLoop (s.suspend_thread ev.suspend_thread) ev s false

/-- The part of `rt_event_recv` after its check of the event set. -/
def recvChecked (ev : Event) (s : Rtos) (thread : Tid) (set : BitVec 32) (option : BitVec 8)
    (timeout : Int) (status : Int) : Option (Rtos × Event × Outcome × Option (BitVec 32)) :=
  if status = RT_EOK then
    let recved := ev.set &&& set
    let s := s.setThread thread fun th =>
      { th with event_set := ev.set &&& set, event_info := option }
    let ev := if option &&& RT_EVENT_FLAG_CLEAR ≠ 0 then { ev with set := ev.set &&& ~~~set } else ev
    some (s, ev, .returned (s.threads thread).error, some recved)
  else if timeout = 0 then
    some (s.setThread thread fun th => { th with error := -RT_ETIMEOUT }, ev,
      .returned (-RT_ETIMEOUT), none)
  else do
    let s := s.setThread thread fun th => { th with event_set := set, event_info := option }
    let s ← s.suspendOn ev.suspend_thread thread ev.flag timeout
    return (s, ev, .suspended, none)

/-- `rt_event_recv` up to its call of `rt_schedule`, with what it stores in `*recved`. -/
def rt_event_recv (ev : Event) (s : Rtos) (set : BitVec 32) (option : BitVec 8) (timeout : Int) :
    Option (Rtos × Event × Outcome × Option (BitVec 32)) :=
  if set = 0 then some (s, ev, .returned (-RT_ERROR), none)
  else do
    let thread ← s.rt_current_thread
    let s := s.setThread thread fun th => { th with error := RT_EOK }
    if option &&& RT_EVENT_FLAG_AND ≠ 0 then
      ev.recvChecked s thread set option timeout (if ev.set &&& set = set then RT_EOK else -RT_ERROR)
    else if option &&& RT_EVENT_FLAG_OR ≠ 0 then
      ev.recvChecked s thread set option timeout (if ev.set &&& set ≠ 0 then RT_EOK else -RT_ERROR)
    else none

/-- What `rt_event_recv` returns, and stores, when its thread goes on after `rt_schedule`. -/
def recvResumed (s : Rtos) (thread : Tid) : Int × Option (BitVec 32) :=
  let th := s.threads thread
  if th.error ≠ RT_EOK then (th.error, none) else (th.error, some th.event_set)

end Event

/-! ### The machine -/

/-- The condition of a receiver. -/
def Satisfied (wanted : BitVec 32) (option : BitVec 8) (set : BitVec 32) : Prop :=
  if option &&& RT_EVENT_FLAG_AND ≠ 0 then set &&& wanted = wanted
  else option &&& RT_EVENT_FLAG_OR ≠ 0 ∧ set &&& wanted ≠ 0

instance (wanted : BitVec 32) (option : BitVec 8) (set : BitVec 32) :
    Decidable (Satisfied wanted option set) := by
  unfold Satisfied
  infer_instance

/-- A call of `rt_event_recv`, with a number of its own. -/
structure EvCall where
  id : Nat
  wanted : BitVec 32
  option : BitVec 8
  deriving DecidableEq, Repr

/-- A receiver whose condition was satisfied by `set`, the event set at that moment. -/
structure EvMatch where
  call : EvCall
  set : BitVec 32
  deriving DecidableEq, Repr

namespace EvMatch

def value (m : EvMatch) : BitVec 32 := m.set &&& m.call.wanted

def consumed (m : EvMatch) : BitVec 32 :=
  if m.call.option &&& RT_EVENT_FLAG_CLEAR ≠ 0 then m.value else 0

end EvMatch

/-- An event and the threads that use it: `call` is the call in which a thread waits, or from which
it has yet to return.  The log of what was sent and matched is not in the code. -/
structure EvSystem where
  os : Rtos
  event : Event
  call : Tid → Option EvCall
  calls : Nat
  log : List (Signal 32 EvMatch)

inductive EvStep where
  | send (set : BitVec 32)
  | recv (t : Tid) (set : BitVec 32) (option : BitVec 8) (timeout : Int)
  | recvResumed (t : Tid)
  | timeout (t : Tid)
  | schedule
  | other (os : Rtos)

namespace EvSystem

def waiting (c : EvSystem) : List Tid := c.os.suspend_thread c.event.suspend_thread

def matchOf (c : EvSystem) (resumed : Tid × BitVec 32) : Option (Signal 32 EvMatch) :=
  (c.call resumed.1).map fun call => .matched ⟨call, resumed.2⟩

def send (c : EvSystem) (set : BitVec 32) : Option EvSystem :=
  (c.event.rt_event_send c.os set).map fun r =>
    { c with
      os := r.os, event := r.event
      log := (r.resumed.filterMap c.matchOf).reverse ++ .sent set :: c.log }

/-- After a receive has returned, or has begun to wait. -/
def afterRecv (c : EvSystem) (t : Tid) (set : BitVec 32) (option : BitVec 8) :
    Rtos × Event × Outcome × Option (BitVec 32) → EvSystem
  | (os, event, .returned err, _) =>
    { c with
      os := os, event := event, calls := c.calls + 1
      log := if err = RT_EOK then .matched ⟨⟨c.calls, set, option⟩, c.event.set⟩ :: c.log else c.log }
  | (os, event, .suspended, _) =>
    { c with
      os := os, event := event, calls := c.calls + 1
      call := Function.update c.call t (some ⟨c.calls, set, option⟩) }

def recv (c : EvSystem) (t : Tid) (set : BitVec 32) (option : BitVec 8) (timeout : Int) :
    Option EvSystem :=
  if Runs c.os t ∧ c.call t = none then
    (c.event.rt_event_recv c.os set option timeout).map (c.afterRecv t set option)
  else none

def recvResumed (c : EvSystem) (t : Tid) : Option EvSystem :=
  if Runs c.os t ∧ c.call t ≠ none then some { c with call := Function.update c.call t none }
  else none

/-- The timer of a thread that uses the event expires. -/
def timeout (c : EvSystem) (t : Tid) : Option EvSystem :=
  if c.call t ≠ none ∧ (c.os.threads t).thread_timer.activated = true then
    (c.os.timerExpires t).map fun os => { c with os := os }
  else none

def step (c : EvSystem) : EvStep → Option EvSystem
  | .send set => c.send set
  | .recv t set option timeout => c.recv t set option timeout
  | .recvResumed t => c.recvResumed t
  | .timeout t => c.timeout t
  | .schedule => c.os.rt_schedule.map fun os => { c with os := os }
  | .other _ => none

/-- The call that returns in the step, with its result and what it has stored in `*recved`. -/
def returns (c : EvSystem) : EvStep → Option (EvCall × Int × Option (BitVec 32))
  | .recv _ set option timeout =>
    match c.event.rt_event_recv c.os set option timeout with
    | some (_, _, .returned err, recved) => some (⟨c.calls, set, option⟩, err, recved)
    | _ => none
  | .recvResumed t => (c.call t).map fun call => (call, Event.recvResumed c.os t)
  | _ => none

/-- An event that was initialised, and that nobody has used. -/
structure Fresh (c : EvSystem) : Prop where
  inv : Inv c.os
  set : c.event.set = 0
  waiting : c.waiting = []
  call : ∀ t, c.call t = none
  log : c.log = []

end EvSystem

def evMachine : Machine EvSystem EvStep where
  start := EvSystem.Fresh
  step c l c' := c.step l = some c' ∨ ∃ os, l = .other os ∧ c' = { c with os := os } ∧
    Elsewhere (· = c.event.suspend_thread) (fun t => c.call t ≠ none) c.os os

/-- No receiver waits for what is there, and each one gets what it matched.  Every match is made
with the bits that were sent and not consumed since. -/
structure EvContract (c : EvSystem) : Prop where
  waiting : ∀ t ∈ c.waiting, ∃ call, c.call t = some call ∧
    ¬Satisfied call.wanted call.option c.event.set
  pending : c.event.set = Signal.pending EvMatch.consumed c.log
  matched : ∀ late m early, c.log = late ++ .matched m :: early →
    m.set = Signal.pending EvMatch.consumed early ∧ Satisfied m.call.wanted m.call.option m.value
  consumed : ∀ late m mid k early i, c.log = late ++ .matched m :: (mid ++ .matched k :: early) →
    m.value.getLsbD i = true → k.consumed.getLsbD i = true →
      ∃ bits, .sent bits ∈ mid ∧ bits.getLsbD i = true
  received : ∀ l c' call recved, evMachine.step c l c' → c.returns l = some (call, RT_EOK, recved) →
    ∃ m, .matched m ∈ c'.log ∧ m.call = call ∧ recved = some m.value
  timeout : ∀ l c' call recved, evMachine.step c l c' →
    c.returns l = some (call, -RT_ETIMEOUT, recved) →
      c'.event = c.event ∧ ∀ m, .matched m ∈ c'.log → m.call.id ≠ call.id
  expires : ∀ t c', evMachine.step c (.timeout t) c' → c'.event = c.event ∧ c'.log = c.log

end Ab32Vg1.Kernel
