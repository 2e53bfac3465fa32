import Ab32Vg1.Kernel.Waiting
import Ab32Vg1.ProofKit.Ring

/-! The mailbox of `ipc.c`: the circular pool is a bounded queue, and no thread waits for a mail or
for room that is there, unless a resumed thread is about to use it. -/

namespace Ab32Vg1.Kernel

open ProofKit Rtos

def RT_MB_ENTRY_MAX : Nat := 65535

/-- `struct rt_mailbox`; `suspend_thread` and `suspend_sender_thread` name its lists of waiting
receivers and senders. -/
structure Mailbox where
  msg_pool : Nat → BitVec 32
  size : Nat
  entry : Nat
  in_offset : Nat
  out_offset : Nat
  suspend_thread : Nat
  suspend_sender_thread : Nat
  flag : IpcFlag

/-- What is left of a waiting time: `timeout -= rt_tick_get() - tick_delta`, on 32-bit words. -/
def remainingTimeout (timeout : Int) (tick_delta tick : Nat) : Int :=
  if 0 < timeout then
    let timeout := Int.bmod (timeout - sub32 tick tick_delta) (2 ^ 32)
    if timeout < 0 then 0 else timeout
  else timeout

/-- `rt_ipc_list_resume` on a list that has a waiting thread. -/
def Rtos.resumeFirst (s : Rtos) (l : Nat) : Option Rtos :=
  if s.suspend_thread l ≠ [] then s.rt_ipc_list_resume l else some s

namespace Mailbox

/-- The part of `rt_mb_send_wait` after its loop. -/
def put (mb : Mailbox) (s : Rtos) (value : BitVec 32) : Option (Rtos × Mailbox × Outcome) :=
  let mb :=
    { mb with
      msg_pool := Function.update mb.msg_pool mb.in_offset value
      in_offset := if mb.size ≤ mb.in_offset + 1 then 0 else mb.in_offset + 1 }
  if mb.entry < RT_MB_ENTRY_MAX then do
    let mb := { mb with entry := mb.entry + 1 }
    let s ← s.resumeFirst mb.suspend_thread
    return (s, mb, .returned RT_EOK)
  else some (s, mb, .returned (-RT_EFULL))

/-- The loop of `rt_mb_send_wait` up to its call of `rt_schedule`, and what follows it. -/
def sendLoop (mb : Mailbox) (s : Rtos) (value : BitVec 32) (timeout : Int) :
    Option (Rtos × Mailbox × Outcome) :=
  if mb.entry = mb.size then do
    let thread ← s.rt_current_thread
    let s := s.setThread thread fun th => { th with error := RT_EOK }
    if timeout = 0 then return (s, mb, .returned (-RT_EFULL))
    else
      let s ← s.suspendOn mb.suspend_sender_thread thread mb.flag timeout
      return (s, mb, .suspended)
  else mb.put s value

/-- `rt_mb_send_wait` up to its first call of `rt_schedule`. -/
def rt_mb_send_wait (mb : Mailbox) (s : Rtos) (value : BitVec 32) (timeout : Int) :
    Option (Rtos × Mailbox × Outcome) :=
  if mb.entry = mb.size ∧ timeout = 0 then some (s, mb, .returned (-RT_EFULL))
  else mb.sendLoop s value timeout

/-- `rt_mb_send_wait` when its thread goes on after `rt_schedule`. -/
def sendResumed (mb : Mailbox) (s : Rtos) (thread : Tid) (value : BitVec 32) (timeout : Int)
    (tick_delta tick : Nat) : Option (Rtos × Mailbox × Outcome) :=
  if (s.threads thread).error ≠ RT_EOK then
    some (s, mb, .returned (s.threads thread).error)
  else mb.sendLoop s value (remainingTimeout timeout tick_delta tick)

def rt_mb_urgent (mb : Mailbox) (s : Rtos) (value : BitVec 32) : Option (Rtos × Mailbox × Outcome) :=
  if mb.entry = mb.size then some (s, mb, .returned (-RT_EFULL))
  else do
    let out_offset := if 0 < mb.out_offset then mb.out_offset - 1 else mb.size - 1
    let mb :=
      { mb with
        out_offset := out_offset
        msg_pool := Function.update mb.msg_pool out_offset value
        entry := mb.entry + 1 }
    let s ← s.resumeFirst mb.suspend_thread
    return (s, mb, .returned RT_EOK)

/-- The part of `rt_mb_recv` after its loop, with the mail that it stores. -/
def get (mb : Mailbox) (s : Rtos) : Option (Rtos × Mailbox × Outcome × Option (BitVec 32)) := do
  let value := mb.msg_pool mb.out_offset
  let mb :=
    { mb with
      out_offset := if mb.size ≤ mb.out_offset + 1 then 0 else mb.out_offset + 1
      entry := if 0 < mb.entry then mb.entry - 1 else mb.entry }
  let s ← s.resumeFirst mb.suspend_sender_thread
  return (s, mb, .returned RT_EOK, some value)

/-- The loop of `rt_mb_recv` up to its call of `rt_schedule`, and what follows it. -/
def recvLoop (mb : Mailbox) (s : Rtos) (timeout : Int) :
    Option (Rtos × Mailbox × Outcome × Option (BitVec 32)) :=
  if mb.entry = 0 then do
    let thread ← s.rt_current_thread
    let s := s.setThread thread fun th => { th with error := RT_EOK }
    if timeout = 0 then
      let s := s.setThread thread fun th => { th with error := -RT_ETIMEOUT }
      return (s, mb, .returned (-RT_ETIMEOUT), none)
    else
      let s ← s.suspendOn mb.suspend_thread thread mb.flag timeout
      return (s, mb, .suspended, none)
  else mb.get s

/-- `rt_mb_recv` up to its first call of `rt_schedule`. -/
def rt_mb_recv (mb : Mailbox) (s : Rtos) (timeout : Int) :
    Option (Rtos × Mailbox × Outcome × Option (BitVec 32)) :=
  if mb.entry = 0 ∧ timeout = 0 then some (s, mb, .returned (-RT_ETIMEOUT), none)
  else mb.recvLoop s timeout

/-- `rt_mb_recv` when its thread goes on after `rt_schedule`. -/
def recvResumed (mb : Mailbox) (s : Rtos) (thread : Tid) (timeout : Int) (tick_delta tick : Nat) :
    Option (Rtos × Mailbox × Outcome × Option (BitVec 32)) :=
  if (s.threads thread).error ≠ RT_EOK then
    some (s, mb, .returned (s.threads thread).error, none)
  else mb.recvLoop s (remainingTimeout timeout tick_delta tick)

end Mailbox

/-! ### The machine -/

/-- Where a thread is with the mailbox: a thread that waits, or has yet to go on, keeps the
arguments of its call and the tick at which it began to wait. -/
inductive MbPc where
  | idle
  | sending (value : BitVec 32) (timeout : Int) (tick_delta : Nat)
  | receiving (timeout : Int) (tick_delta : Nat)
  deriving DecidableEq, Repr

/-- A mail in the abstract queue, with a number of its own. -/
structure Mail where
  id : Nat
  value : BitVec 32
  deriving DecidableEq, Repr

/-- The mailbox, the threads that use it, and the abstract queue: `accepted` are the mails whose
send returned `RT_EOK`, `received` are the mails as their receivers got them. -/
structure MbSystem where
  os : Rtos
  mb : Mailbox
  tick : Nat
  pc : Tid → MbPc
  queue : List Mail
  accepted : List Mail
  received : List Mail

inductive MbStep where
  | send (caller : Option Tid) (value : BitVec 32) (timeout : Int)
  | sendResumed (t : Tid)
  | urgent (value : BitVec 32)
  | recv (caller : Option Tid) (timeout : Int)
  | recvResumed (t : Tid)
  | timeout (t : Tid)
  | tick
  | schedule
  | other (os : Rtos)

namespace MbSystem

/-- The thread is inside a send or a receive. -/
def busy (c : MbSystem) (t : Tid) : Bool := decide (c.pc t ≠ .idle)

def setPc (c : MbSystem) (caller : Option Tid) (pc : MbPc) : MbSystem :=
  match caller with
  | some t => { c with pc := Function.update c.pc t pc }
  | none => c

/-! The abstract queue. -/

def enqueue (c : MbSystem) (value : BitVec 32) : MbSystem :=
  let mail : Mail := ⟨c.accepted.length, value⟩
  { c with queue := c.queue ++ [mail], accepted := c.accepted ++ [mail] }

def enqueueUrgent (c : MbSystem) (value : BitVec 32) : MbSystem :=
  let mail : Mail := ⟨c.accepted.length, value⟩
  { c with queue := mail :: c.queue, accepted := c.accepted ++ [mail] }

/-- The front of the queue leaves, with the value that the receiver got. -/
def dequeue (c : MbSystem) (value : BitVec 32) : MbSystem :=
  match c.queue with
  | [] => c
  | mail :: queue => { c with queue := queue, received := c.received ++ [⟨mail.id, value⟩] }

/-! The steps. -/

/-- After a part of a send: it returns, or its thread waits with `timeout` left. -/
def afterSend (c : MbSystem) (caller : Option Tid) (value : BitVec 32) (timeout : Int) :
    Rtos × Mailbox × Outcome → MbSystem
  | (os, mb, .returned err) =>
    let c := { c with os := os, mb := mb }.setPc caller .idle
    if err = RT_EOK then c.enqueue value else c
  | (os, mb, .suspended) =>
    { c with os := os, mb := mb }.setPc caller (.sending value timeout c.tick)

/-- After a part of a receive. -/
def afterRecv (c : MbSystem) (caller : Option Tid) (timeout : Int) :
    Rtos × Mailbox × Outcome × Option (BitVec 32) → MbSystem
  | (os, mb, .returned _, value) =>
    let c := { c with os := os, mb := mb }.setPc caller .idle
    match value with
    | some value => c.dequeue value
    | none => c
  | (os, mb, .suspended, _) =>
    { c with os := os, mb := mb }.setPc caller (.receiving timeout c.tick)

def send (c : MbSystem) (caller : Option Tid) (value : BitVec 32) (timeout : Int) :
    Option MbSystem :=
  if MayCall c.os c.busy timeout caller then
    (c.mb.rt_mb_send_wait c.os value timeout).map (c.afterSend caller value timeout)
  else none

def sendResumed (c : MbSystem) (t : Tid) : Option MbSystem :=
  match c.pc t with
  | .sending value timeout tick_delta =>
    if Runs c.os t then
      (c.mb.sendResumed c.os t value timeout tick_delta c.tick).map
        (c.afterSend (some t) value (remainingTimeout timeout tick_delta c.tick))
    else none
  | _ => none

def urgent (c : MbSystem) (value : BitVec 32) : Option MbSystem := do
  let (os, mb, outcome) ← c.mb.rt_mb_urgent c.os value
  let c := { c with os := os, mb := mb }
  if outcome = .returned RT_EOK then return c.enqueueUrgent value else return c

def recv (c : MbSystem) (caller : Option Tid) (timeout : Int) : Option MbSystem :=
  if MayCall c.os c.busy timeout caller then
    (c.mb.rt_mb_recv c.os timeout).map (c.afterRecv caller timeout)
  else none

def recvResumed (c : MbSystem) (t : Tid) : Option MbSystem :=
  match c.pc t with
  | .receiving timeout tick_delta =>
    if Runs c.os t then
      (c.mb.recvResumed c.os t timeout tick_delta c.tick).map
        (c.afterRecv (some t) (remainingTimeout timeout tick_delta c.tick))
    else none
  | _ => none

/-- The timer of a thread that uses the mailbox expires. -/
def timeout (c : MbSystem) (t : Tid) : Option MbSystem :=
  if c.busy t = true ∧ (c.os.threads t).thread_timer.activated = true then
    (c.os.timerExpires t).map fun os => { c with os := os }
  else none

def step (c : MbSystem) : MbStep → Option MbSystem
  | .send caller value timeout => c.send caller value timeout
  | .sendResumed t => c.sendResumed t
  | .urgent value => c.urgent value
  | .recv caller timeout => c.recv caller timeout
  | .recvResumed t => c.recvResumed t
  | .timeout t => c.timeout t
  | .tick => some { c with tick := add32 c.tick 1 }
  | .schedule => c.os.rt_schedule.map fun os => { c with os := os }
  | .other _ => none

/-- How a step of a send or a receive ends. -/
def outcome (c : MbSystem) : MbStep → Option Outcome
  | .send _ value timeout => (c.mb.rt_mb_send_wait c.os value timeout).map (·.2.2)
  | .sendResumed t =>
    match c.pc t with
    | .sending value timeout tick_delta =>
      (c.mb.sendResumed c.os t value timeout tick_delta c.tick).map (·.2.2)
    | _ => none
  | .urgent value => (c.mb.rt_mb_urgent c.os value).map (·.2.2)
  | .recv _ timeout => (c.mb.rt_mb_recv c.os timeout).map (·.2.2.1)
  | .recvResumed t =>
    match c.pc t with
    | .receiving timeout tick_delta =>
      (c.mb.recvResumed c.os t timeout tick_delta c.tick).map (·.2.2.1)
    | _ => none
  | _ => none

/-- The threads that wait on one side of the mailbox. -/
inductive Side where
  | sender
  | receiver
  deriving DecidableEq, Repr

def Side.other : Side → Side
  | .sender => .receiver
  | .receiver => .sender

def list (c : MbSystem) : Side → Nat
  | .sender => c.mb.suspend_sender_thread
  | .receiver => c.mb.suspend_thread

def waiting (c : MbSystem) (side : Side) : List Tid := c.os.suspend_thread (c.list side)

end MbSystem

/-- The side on which a thread waits, or has waited. -/
def MbPc.side : MbPc → Option MbSystem.Side
  | .idle => none
  | .sending .. => some .sender
  | .receiving .. => some .receiver

namespace MbSystem

/-- A thread that has been resumed and has not run. -/
def Resumed (c : MbSystem) (side : Side) (t : Tid) : Prop :=
  (c.pc t).side = some side ∧ t ∉ c.waiting side ∧ (c.os.threads t).error = RT_EOK

/-- An empty mailbox, used by nobody. -/
structure Fresh (c : MbSystem) : Prop where
  inv : Inv c.os
  size : c.mb.size ≤ RT_MB_ENTRY_MAX
  entry : c.mb.entry = 0
  in_offset : c.mb.in_offset = 0
  out_offset : c.mb.out_offset = 0
  lists : c.mb.suspend_thread ≠ c.mb.suspend_sender_thread
  waiting : ∀ side, c.waiting side = []
  pc : ∀ t, c.pc t = .idle
  queue : c.queue = []
  accepted : c.accepted = []
  received : c.received = []

/-- A step that returns `RT_EOK` is a step of the abstract queue; every other step leaves the
mailbox as it is. -/
def Refines (c : MbSystem) (l : MbStep) (c' : MbSystem) : Prop :=
  if c.outcome l = some (.returned RT_EOK) then
    match l with
    | .send _ value _ => c'.queue = c.queue ++ [⟨c.accepted.length, value⟩]
    | .sendResumed t => ∃ value timeout tick_delta, c.pc t = .sending value timeout tick_delta ∧
        c'.queue = c.queue ++ [⟨c.accepted.length, value⟩]
    | .urgent value => c'.queue = ⟨c.accepted.length, value⟩ :: c.queue
    | _ => ∃ mail, c.queue = mail :: c'.queue ∧ c'.received = c.received ++ [mail]
  else c'.mb = c.mb ∧ c'.queue = c.queue ∧ c'.accepted = c.accepted ∧ c'.received = c.received

end MbSystem

def mbMachine : Machine MbSystem MbStep where
  start := MbSystem.Fresh
  step c l c' := c.step l = some c' ∨ ∃ os, l = .other os ∧ c' = { c with os := os } ∧
    Elsewhere (fun l => ∃ side, l = c.list side) (fun t => c.busy t = true) c.os os

/-- The mailbox is the abstract queue, and no thread waits in vain. -/
structure MbContract (c : MbSystem) : Prop where
  pool : Ring.Holds c.mb.msg_pool c.mb.size c.mb.in_offset c.mb.out_offset (c.queue.map Mail.value)
  entry : c.mb.entry = c.queue.length
  bound : c.mb.entry ≤ c.mb.size
  once : (c.received ++ c.queue).Perm c.accepted ∧ (c.accepted.map Mail.id).Nodup
  refines : ∀ l c', mbMachine.step c l c' → c.Refines l c'
  waiting : (∀ side t, ¬c.Resumed side t) →
    (c.waiting .receiver ≠ [] → c.mb.entry = 0) ∧ (c.waiting .sender ≠ [] → c.mb.entry = c.mb.size)

end Ab32Vg1.Kernel
