import Ab32Vg1.Kernel.Mailbox

/-! The data queue of `dataqueue.c`: a circular array of items whose indices have 15 bits, with a
flag for empty and one for full. -/

namespace Ab32Vg1.Drivers

open ProofKit Kernel Rtos

/-- `struct rt_data_item`. -/
structure DqItem where
  data_ptr : Nat
  data_size : BitVec 32
  deriving DecidableEq, Repr

/-- `struct rt_data_queue`; `evt_notify` says whether a handler is set. -/
structure DataQueue where
  size : Nat
  lwm : Nat
  get_index : Nat
  is_empty : Bool
  put_index : Nat
  is_full : Bool
  queue : Nat → DqItem
  suspended_push_list : Nat
  suspended_pop_list : Nat
  evt_notify : Bool

def RT_EEMPTY : Int := 4

/-- The events that `evt_notify` is called with. -/
inductive DataQueueEvent
  | RT_DATAQUEUE_EVENT_POP
  | RT_DATAQUEUE_EVENT_PUSH
  | RT_DATAQUEUE_EVENT_LWM
  deriving DecidableEq, Repr

open DataQueueEvent

namespace DataQueue

/-- `queue->put_index += 1` and its wrap, in 15 bits. -/
def nextIndex (dq : DataQueue) (index : Nat) : Nat :=
  if (index + 1) % 2 ^ 15 = dq.size then 0 else (index + 1) % 2 ^ 15

def notify (dq : DataQueue) (event : DataQueueEvent) : Option DataQueueEvent :=
  if dq.evt_notify then some event else none

/-- `rt_data_queue_len` from its critical section on, in 16 bits. -/
def measured (dq : DataQueue) : Nat :=
  if dq.put_index > dq.get_index then (dq.put_index - dq.get_index) % 2 ^ 16
  else (dq.size + dq.put_index - dq.get_index) % 2 ^ 16

def rt_data_queue_len (dq : DataQueue) : Nat := if dq.is_empty then 0 else dq.measured

/-- The data queue after `rt_data_queue_push` stores an item in its array. -/
def stored (dq : DataQueue) (item : DqItem) : DataQueue :=
  let put_index := dq.nextIndex dq.put_index
  { dq with
    queue := Function.update dq.queue dq.put_index item
    put_index := put_index
    is_empty := false
    is_full := if put_index = dq.get_index then true else dq.is_full }

/-- The data queue after `rt_data_queue_pop` takes the item at the front of its array. -/
def taken (dq : DataQueue) : DataQueue :=
  let get_index := dq.nextIndex dq.get_index
  { dq with
    get_index := get_index
    is_full := false
    is_empty := if dq.put_index = get_index then true else dq.is_empty }

/-- The part of `rt_data_queue_push` after its loop. -/
def put (dq : DataQueue) (s : Rtos) (item : DqItem) :
    Option (Rtos × DataQueue × Outcome × Option DataQueueEvent) := do
  let dq := dq.stored item
  if s.suspend_thread dq.suspended_pop_list ≠ [] then
    let s ← s.rt_ipc_list_resume dq.suspended_pop_list
    return (s, dq, .returned RT_EOK, none)
  else return (s, dq, .returned RT_EOK, dq.notify RT_DATAQUEUE_EVENT_PUSH)

/-- The loop of `rt_data_queue_push` up to its call of `rt_schedule`, and what follows it. -/
def rt_data_queue_push (dq : DataQueue) (s : Rtos) (item : DqItem) (timeout : Int) :
    Option (Rtos × DataQueue × Outcome × Option DataQueueEvent) :=
  if dq.is_full then
    if timeout = 0 then some (s, dq, .returned (-RT_ETIMEOUT), none)
    else do
      let thread ← s.rt_current_thread
      let s ← s.waitOn dq.suspended_push_list thread .fifo timeout
      return (s, dq, .suspended, none)
  else dq.put s item

/-- `rt_data_queue_push` when its thread goes on after `rt_schedule`. -/
def pushResumed (dq : DataQueue) (s : Rtos) (thread : Tid) (item : DqItem) (timeout : Int) :
    Option (Rtos × DataQueue × Outcome × Option DataQueueEvent) :=
  if (s.threads thread).error ≠ RT_EOK then
    some (s, dq, .returned (s.threads thread).error, none)
  else dq.rt_data_queue_push s item timeout

/-- The part of `rt_data_queue_pop` after its loop, with the item that it stores. -/
def get (dq : DataQueue) (s : Rtos) :
    Option (Rtos × DataQueue × Outcome × Option DqItem × Option DataQueueEvent) := do
  let item := dq.queue dq.get_index
  let dq := dq.taken
  if dq.rt_data_queue_len ≤ dq.lwm then
    if s.suspend_thread dq.suspended_push_list ≠ [] then
      let s ← s.rt_ipc_list_resume dq.suspended_push_list
      return (s, dq, .returned RT_EOK, some item, dq.notify RT_DATAQUEUE_EVENT_LWM)
    else return (s, dq, .returned RT_EOK, some item, dq.notify RT_DATAQUEUE_EVENT_LWM)
  else return (s, dq, .returned RT_EOK, some item, dq.notify RT_DATAQUEUE_EVENT_POP)

/-- The loop of `rt_data_queue_pop` up to its call of `rt_schedule`, and what follows it. -/
def rt_data_queue_pop (dq : DataQueue) (s : Rtos) (timeout : Int) :
    Option (Rtos × DataQueue × Outcome × Option DqItem × Option DataQueueEvent) :=
  if dq.is_empty then
    if timeout = 0 then some (s, dq, .returned (-RT_ETIMEOUT), none, none)
    else do
      let thread ← s.rt_current_thread
      let s ← s.waitOn dq.suspended_pop_list thread .fifo timeout
      return (s, dq, .suspended, none, none)
  else dq.get s

/-- `rt_data_queue_pop` when its thread goes on after `rt_schedule`. -/
def popResumed (dq : DataQueue) (s : Rtos) (thread : Tid) (timeout : Int) :
    Option (Rtos × DataQueue × Outcome × Option DqItem × Option DataQueueEvent) :=
  if (s.threads thread).error ≠ RT_EOK then
    some (s, dq, .returned (s.threads thread).error, none, none)
  else dq.rt_data_queue_pop s timeout

/-- `rt_data_queue_peek` in its critical section: the item that it stores. -/
def peeked (dq : DataQueue) : DqItem := dq.queue dq.get_index

/-- `rt_data_queue_init`, with the array that `rt_malloc` returns. -/
def rt_data_queue_init (size lwm : Nat) (evt_notify : Bool) (queue : Nat → DqItem)
    (suspended_push_list suspended_pop_list : Nat) : DataQueue :=
  { size, lwm, get_index := 0, is_empty := true, put_index := 0, is_full := false, queue,
    suspended_push_list, suspended_pop_list, evt_notify }

end DataQueue

/-! ### The machine -/

/-- Where a thread is with the data queue.  `rt_data_queue_len` and `rt_data_queue_peek` look at
`is_empty` before they disable interrupts. -/
inductive DqPc where
  | idle
  | pushing (item : DqItem) (timeout : Int)
  | popping (timeout : Int)
  | measuring
  | peeking
  deriving DecidableEq, Repr

/-- The data queue, the threads that use it, and the abstract queue: `pushed` are the items whose
push returned `RT_EOK`, `popped` are the items that pops stored. -/
structure DqSystem where
  os : Rtos
  dq : DataQueue
  pc : Tid → DqPc
  queue : List DqItem
  pushed : List DqItem
  popped : List DqItem

/-- `caller` is a thread or, as `none`, an interrupt handler.  `other` is anything else that the rest
of the system does. -/
inductive DqStep where
  | push (caller : Option Tid) (item : DqItem) (timeout : Int)
  | pushResumed (t : Tid)
  | pop (caller : Option Tid) (timeout : Int)
  | popResumed (t : Tid)
  | len (caller : Option Tid)
  | lenLocked (t : Tid)
  | peek (caller : Option Tid)
  | peekLocked (t : Tid)
  | timeout (t : Tid)
  | schedule
  | other (os : Rtos)

/-- How a step of an operation ends. -/
inductive DqOutcome where
  | returned (err : Int)
  | length (n : Nat)
  | goesOn
  deriving DecidableEq, Repr

namespace DqSystem

def setPc (c : DqSystem) (caller : Option Tid) (pc : DqPc) : DqSystem :=
  match caller with
  | some t => { c with pc := Function.update c.pc t pc }
  | none => c

def busy (c : DqSystem) (t : Tid) : Bool := decide (c.pc t ≠ .idle)

/-- After a part of a push: it returns, or its thread waits. -/
def afterPush (c : DqSystem) (caller : Option Tid) (item : DqItem) (timeout : Int) :
    Rtos × DataQueue × Outcome × Option DataQueueEvent → DqSystem × DqOutcome
  | (os, dq, .returned err, _) =>
    let c := { c with os := os, dq := dq }.setPc caller .idle
    if err = RT_EOK then
      ({ c with queue := c.queue ++ [item], pushed := c.pushed ++ [item] }, .returned err)
    else (c, .returned err)
  | (os, dq, .suspended, _) =>
    ({ c with os := os, dq := dq }.setPc caller (.pushing item timeout), .goesOn)

/-- After a part of a pop. -/
def afterPop (c : DqSystem) (caller : Option Tid) (timeout : Int) :
    Rtos × DataQueue × Outcome × Option DqItem × Option DataQueueEvent → DqSystem × DqOutcome
  | (os, dq, .returned err, item, _) =>
    let c := { c with os := os, dq := dq }.setPc caller .idle
    match item with
    | some item =>
      ({ c with queue := c.queue.tail, popped := c.popped ++ [item] }, .returned err)
    | none => (c, .returned err)
  | (os, dq, .suspended, _, _) =>
    ({ c with os := os, dq := dq }.setPc caller (.popping timeout), .goesOn)

/-- A step, and how it ends. -/
def next (c : DqSystem) : DqStep → Option (DqSystem × DqOutcome)
  | .push caller item timeout =>
    if MayCall c.os c.busy timeout caller then
      (c.dq.rt_data_queue_push c.os item timeout).map (c.afterPush caller item timeout)
    else none
  | .pushResumed t =>
    match c.pc t with
    | .pushing item timeout =>
      if Runs c.os t then
        (c.dq.pushResumed c.os t item timeout).map (c.afterPush (some t) item timeout)
      else none
    | _ => none
  | .pop caller timeout =>
    if MayCall c.os c.busy timeout caller then
      (c.dq.rt_data_queue_pop c.os timeout).map (c.afterPop caller timeout)
    else none
  | .popResumed t =>
    match c.pc t with
    | .popping timeout =>
      if Runs c.os t then
        (c.dq.popResumed c.os t timeout).map (c.afterPop (some t) timeout)
      else none
    | _ => none
  | .len caller =>
    if MayCall c.os c.busy 0 caller then
      if c.dq.is_empty then some (c, .length 0)
      else
        match caller with
        | some t => some ({ c with pc := Function.update c.pc t .measuring }, .goesOn)
        | none => some (c, .length c.dq.measured)
    else none
  | .lenLocked t =>
    if c.pc t = .measuring ∧ Runs c.os t then
      some ({ c with pc := Function.update c.pc t .idle }, .length c.dq.measured)
    else none
  | .peek caller =>
    if MayCall c.os c.busy 0 caller then
      if c.dq.is_empty then some (c, .returned (-RT_EEMPTY))
      else
        match caller with
        | some t => some ({ c with pc := Function.update c.pc t .peeking }, .goesOn)
        | none => some (c, .returned RT_EOK)
    else none
  | .peekLocked t =>
    if c.pc t = .peeking ∧ Runs c.os t then
      some ({ c with pc := Function.update c.pc t .idle }, .returned RT_EOK)
    else none
  | .timeout t =>
    if c.busy t = true ∧ (c.os.threads t).thread_timer.activated = true then
      (c.os.timerExpires t).map fun os => ({ c with os := os }, .goesOn)
    else none
  | .schedule => c.os.rt_schedule.map fun os => ({ c with os := os }, .goesOn)
  | .other os => some ({ c with os := os }, .goesOn)

def step (c : DqSystem) (l : DqStep) : Option DqSystem := (c.next l).map Prod.fst

def outcome (c : DqSystem) (l : DqStep) : Option DqOutcome := (c.next l).map Prod.snd

/-- The steps of the threads and handlers that use the queue as the code expects: the indices of the
array fit their bit-fields, and nobody empties the queue between the two looks of
`rt_data_queue_len` at it. -/
def Sound (c : DqSystem) : DqStep → Prop
  | .lenLocked _ => c.dq.size ≤ 2 ^ 15 ∧ c.dq.is_empty = false
  | _ => c.dq.size ≤ 2 ^ 15

instance (c : DqSystem) : (l : DqStep) → Decidable (c.Sound l)
  | .lenLocked _ => inferInstanceAs (Decidable (_ ∧ _))
  | .push .. | .pushResumed _ | .pop .. | .popResumed _ | .len _ | .peek _ | .peekLocked _
  | .timeout _ | .schedule | .other _ => inferInstanceAs (Decidable (_ ≤ _))

/-- A queue that has just been initialised, used by nobody. -/
structure Fresh (c : DqSystem) : Prop where
  size_pos : 0 < c.dq.size
  size_lt : c.dq.size < 2 ^ 16
  init : ∃ lwm evt_notify queue push_list pop_list, c.dq =
    DataQueue.rt_data_queue_init c.dq.size lwm evt_notify queue push_list pop_list
  pc : ∀ t, c.pc t = .idle
  queue : c.queue = []
  pushed : c.pushed = []
  popped : c.popped = []

/-- The queue is left as it is. -/
def Unchanged (c c' : DqSystem) : Prop :=
  c'.dq = c.dq ∧ c'.queue = c.queue ∧ c'.pushed = c.pushed ∧ c'.popped = c.popped

/-- What a step that returns `RT_EOK` does: a push appends its item, a pop delivers the first one. -/
def Accepted (c : DqSystem) (c' : DqSystem) : DqStep → Prop
  | .push _ item _ => c'.queue = c.queue ++ [item] ∧ c'.pushed = c.pushed ++ [item]
  | .pushResumed t => ∃ item timeout, c.pc t = .pushing item timeout ∧
      c'.queue = c.queue ++ [item] ∧ c'.pushed = c.pushed ++ [item]
  | .pop .. | .popResumed _ => ∃ item, c.queue = item :: c'.queue ∧ c'.popped = c.popped ++ [item]
  | _ => c.Unchanged c'

/-- Any other step leaves the queue as it is. -/
def Refines (c : DqSystem) (l : DqStep) (c' : DqSystem) : Prop :=
  if c.outcome l = some (.returned RT_EOK) then c.Accepted c' l else c.Unchanged c'

end DqSystem

def dqMachine : Machine DqSystem DqStep where
  start := DqSystem.Fresh
  step c l c' := c.step l = some c'

/-- The data queue is the abstract queue, and its flags and length say how long that is. -/
structure DqContract (c : DqSystem) : Prop where
  in_order : c.pushed = c.popped ++ c.queue
  flags : ¬(c.dq.is_empty = true ∧ c.dq.is_full = true)
  empty : c.dq.is_empty = true ↔ c.queue.length = 0
  full : c.dq.is_full = true ↔ c.queue.length = c.dq.size
  length : ∀ l n, c.Sound l → c.outcome l = some (.length n) → n = c.queue.length
  refines : ∀ l c', c.Sound l → c.step l = some c' → c.Refines l c'

end Ab32Vg1.Drivers
