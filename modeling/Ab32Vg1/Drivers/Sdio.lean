import Ab32Vg1.Drivers.Mmcsd
import Ab32Vg1.Kernel.Event

/-! The SDIO host of `drv_sdio.c`: a thread that sends a request, the controller that signals what it
has completed, and the event in which the interrupt posts the status word. -/

namespace Ab32Vg1.Drivers

open Kernel ProofKit Rtos

def HW_SDIO_CON_CFLAG : BitVec 32 := 1 <<< 12

def HW_SDIO_CON_DFLAG : BitVec 32 := 1 <<< 13

def HW_SDIO_CON_NRPS : BitVec 32 := 1 <<< 15

def HW_SDIO_CON_CRCS : BitVec 32 := 7 <<< 17

/-- The bits of `SDxCON` in which the controller reports, from `CCRCE` to `BUSY`. -/
def HW_SDIO_STATUS : BitVec 32 := 0x001fc000

/-- `0xFFFFFFFF & ~HW_SDIO_CON_DFLAG` -/
def SDIO_WAIT : BitVec 32 := 0xffffffff &&& ~~~HW_SDIO_CON_DFLAG

def SDIO_OPTION : BitVec 8 := RT_EVENT_FLAG_OR ||| RT_EVENT_FLAG_CLEAR

/-- `rt_tick_from_millisecond(5000)` -/
def SDIO_TIMEOUT : Int := 5000

/-- What a request sends: the direction and the number of blocks of its data, if it has any, and
whether a stop command follows. -/
structure SdioRequest where
  data : Option (DataDir × Nat)
  stop : Bool
  blks_pos : ∀ d, data = some d → 0 < d.2

/-- What the controller completes, and what a wait stands for. -/
inductive Completion where
  | command
  | block (i : Nat)
  | stop
  deriving DecidableEq, Repr

def Completion.flag : Completion → BitVec 32
  | .block _ => HW_SDIO_CON_DFLAG
  | _ => HW_SDIO_CON_CFLAG

/-- Where the requesting thread is in `rthw_sdio_send_command`: about to write `SDxCMD`, about to
call `rt_event_recv`, inside it, or about to program the transfer of a block. -/
inductive SdioPc where
  | send (w : Completion)
  | recv (w : Completion)
  | waiting (w : Completion)
  | program (i : Nat)
  | done
  deriving DecidableEq, Repr

namespace SdioRequest

/-- The transfer of the first block of a read was programmed before the command. -/
def blockStart (req : SdioRequest) (i : Nat) : SdioPc :=
  match req.data with
  | some (.read, _) => if i ≠ 0 then .program i else .recv (.block i)
  | _ => .program i

def afterData (req : SdioRequest) : SdioPc := if req.stop then .send .stop else .done

/-- Where the thread goes on after a wait. -/
def after (req : SdioRequest) : Completion → SdioPc
  | .command =>
    match req.data with
    | some _ => req.blockStart 0
    | none => req.afterData
  | .block i =>
    match req.data with
    | some (_, blks) => if i + 1 ≠ blks then req.blockStart (i + 1) else req.afterData
    | none => .done
  | .stop => .done

/-- What the controller works on once the command is written. -/
def started (req : SdioRequest) : Completion → List Completion
  | .command =>
    match req.data with
    | some (.read, _) => [.block 0, .command]
    | _ => [.command]
  | w => [w]

end SdioRequest

/-- The host and its request.  Not in the code: the completions that the controller owes, has flagged
in `SDxCON` and has had posted in the event, those of the posted that are unread, or taken by the
wait that goes on; the waits with what has satisfied them, and those that timed out, with whether
their completion had been signalled. -/
structure Sdio where
  os : Rtos
  event : Event
  thread : Tid
  request : SdioRequest
  SDxCON : BitVec 32
  cmd_err : Int
  stop_err : Int
  pc : SdioPc
  owed : List Completion
  flagged : List Completion
  posted : List Completion
  unread : List Completion
  taken : List Completion
  log : List (Completion × List Completion)
  timeouts : List (Completion × Bool)

inductive SdioStep where
  | send
  | program
  | recv
  | recvResumed
  | signal (w : Completion) (status : BitVec 32)
  | status (status : BitVec 32)
  | irq
  | timeout
  | schedule
  | other (os : Rtos)

namespace Sdio

def suspended (c : Sdio) : List Tid := c.os.suspend_thread c.event.suspend_thread

/-- The part of `rthw_sdio_send_command` up to its call of `rthw_sdio_wait_completed`. -/
def send (c : Sdio) : Option Sdio :=
  match c.pc with
  | .send w =>
    if Runs c.os c.thread then
      some { c with pc := .recv w, owed := c.owed ++ c.request.started w }
    else none
  | _ => none

/-- `rthw_sdio_transfer_by_dma` in the loop over the blocks. -/
def program (c : Sdio) : Option Sdio :=
  match c.pc with
  | .program i =>
    if Runs c.os c.thread then
      some { c with pc := .recv (.block i), owed := c.owed ++ [.block i] }
    else none
  | _ => none

/-- What `rthw_sdio_wait_completed` stores in `cmd->err`. -/
def waitResult (err : Int) (status : Option (BitVec 32)) : Int :=
  if err ≠ RT_EOK then -RT_ETIMEOUT
  else if status.getD 0 &&& HW_SDIO_CON_NRPS = 0 then RT_EOK else -RT_ERROR

/-- The check of a block after `rt_event_recv` has returned. -/
def blockReceived (c : Sdio) (err : Int) : Sdio :=
  let failed := c.request.data.map Prod.fst = some .write ∧
    (c.SDxCON &&& HW_SDIO_CON_CRCS) >>> 17 ≠ 2
  { c with
    cmd_err := if failed then -RT_ERROR else if err ≠ RT_EOK then -RT_ETIMEOUT else c.cmd_err
    SDxCON := if failed then c.SDxCON &&& ~~~HW_SDIO_CON_DFLAG else c.SDxCON
    flagged :=
      if failed then c.flagged.filter fun w => w.flag ≠ HW_SDIO_CON_DFLAG else c.flagged }

/-- What the thread does with what `rt_event_recv` returns. -/
def received (c : Sdio) (w : Completion) (err : Int) (status : Option (BitVec 32)) : Sdio :=
  let c :=
    { c with
      pc := c.request.after w, taken := []
      log := if err = RT_EOK then (w, c.taken) :: c.log else c.log }
  match w with
  | .command => { c with cmd_err := waitResult err status }
  | .stop => { c with stop_err := waitResult err status }
  | .block _ => c.blockReceived err

def recv (c : Sdio) : Option Sdio :=
  match c.pc with
  | .recv w =>
    if Runs c.os c.thread then
      (c.event.rt_event_recv c.os SDIO_WAIT SDIO_OPTION SDIO_TIMEOUT).map fun
        | (os, event, .returned err, status) =>
          { c with os := os, event := event, taken := c.unread, unread := [] }.received w err status
        | (os, event, .suspended, _) => { c with os := os, event := event, pc := .waiting w }
    else none
  | _ => none

def recvResumed (c : Sdio) : Option Sdio :=
  match c.pc with
  | .waiting w =>
    if Runs c.os c.thread then
      let (err, status) := Event.recvResumed c.os c.thread
      some (c.received w err status)
    else none
  | _ => none

/-- The controller signals a completion, with what it reports about it. -/
def signal (c : Sdio) (w : Completion) (status : BitVec 32) : Option Sdio :=
  if w ∈ c.owed then
    some { c with
      SDxCON := (c.SDxCON &&& ~~~HW_SDIO_STATUS) ||| (status &&& HW_SDIO_STATUS) ||| w.flag
      owed := c.owed.erase w, flagged := c.flagged ++ [w] }
  else none

/-- `rthw_sdio_irq_process` -/
def irq (c : Sdio) : Option Sdio :=
  let intstatus := c.SDxCON
  let complete := intstatus &&& (HW_SDIO_CON_CFLAG ||| HW_SDIO_CON_DFLAG)
  if complete ≠ 0 then
    (c.event.rt_event_send c.os intstatus).map fun r =>
      let c := { c with
        os := r.os, event := r.event, SDxCON := c.SDxCON &&& ~~~complete
        posted := c.posted ++ c.flagged, flagged := [], unread := c.unread ++ c.flagged }
      if r.resumed ≠ [] then { c with taken := c.unread, unread := [] } else c
  else some c

/-- The timer of the waiting thread expires. -/
def timeout (c : Sdio) : Option Sdio :=
  match c.pc with
  | .waiting w =>
    if (c.os.threads c.thread).thread_timer.activated = true then
      (c.os.timerExpires c.thread).map fun os =>
        { c with
          os := os
          timeouts := (w, decide (w ∈ c.posted ∨ w ∈ c.flagged)) :: c.timeouts }
    else none
  | _ => none

def step (c : Sdio) : SdioStep → Option Sdio
  | .send => c.send
  | .program => c.program
  | .recv => c.recv
  | .recvResumed => c.recvResumed
  | .signal w status => c.signal w status
  | .status status =>
    some { c with
      SDxCON := (c.SDxCON &&& ~~~HW_SDIO_STATUS) ||| (status &&& HW_SDIO_STATUS) }
  | .irq => c.irq
  | .timeout => c.timeout
  | .schedule => c.os.rt_schedule.map fun os => { c with os := os }
  | .other _ => none

/-- A request that begins on an enabled controller, with nothing left of an earlier one. -/
structure Fresh (c : Sdio) : Prop where
  inv : Inv c.os
  waiting : c.suspended = []
  set : c.event.set &&& SDIO_WAIT = 0
  enabled : c.SDxCON.getLsbD 0 = true
  unflagged : c.SDxCON &&& (HW_SDIO_CON_CFLAG ||| HW_SDIO_CON_DFLAG) = 0
  pc : c.pc = .send .command
  nothing : c.owed = [] ∧ c.flagged = [] ∧ c.posted = [] ∧ c.unread = [] ∧ c.taken = []
  empty : c.log = [] ∧ c.timeouts = []

end Sdio

def sdioMachine : Machine Sdio SdioStep where
  start := Sdio.Fresh
  step c l c' := c.step l = some c' ∨ ∃ os, l = .other os ∧ c' = { c with os := os } ∧
    Elsewhere (· = c.event.suspend_thread) (· = c.thread) c.os os

/-- Every wait is satisfied by the completion that it stands for, and only by it; none times out whose
completion was signalled. -/
structure SdioContract (c : Sdio) : Prop where
  satisfied : ∀ w taken, (w, taken) ∈ c.log → taken = [w]
  lost : ∀ w signalled, (w, signalled) ∈ c.timeouts → signalled = false

/-! ### The steps that keep the completions apart -/

/-- The completion that a wait from here on stands for. -/
def SdioPc.nextWait : SdioPc → Option Completion
  | .send w => some w
  | .recv w => some w
  | .waiting w => some w
  | .program i => some (.block i)
  | .done => none

namespace Sdio

/-- The completion that the thread waits for, or will wait for next. -/
def expected (c : Sdio) : Option Completion :=
  match c.pc with
  | .waiting w =>
    if c.thread ∈ c.suspended then some w else (c.request.after w).nextWait
  | pc => pc.nextWait

/-- An interrupt finds one completion flagged and none unread, and it is the one that the thread waits
for next.  No wait times out between the signal of its completion and the interrupt. -/
def Apart (c : Sdio) : SdioStep → Prop
  | .irq => c.SDxCON &&& (HW_SDIO_CON_CFLAG ||| HW_SDIO_CON_DFLAG) ≠ 0 →
      c.unread = [] ∧ c.expected.map ([·]) = some c.flagged
  | .timeout => ∀ w ∈ c.flagged, c.pc ≠ .waiting w
  | _ => True

instance (c : Sdio) (l : SdioStep) : Decidable (c.Apart l) := by
  unfold Apart
  split <;> infer_instance

end Sdio

end Ab32Vg1.Drivers
