import Ab32Vg1.Kernel.Mailbox
import Ab32Vg1.ProofKit.LinkedList

/-! The message queue of `ipc.c`: the nodes of its pool are free, in the queue, or in the hands of
an operation that copies a message with interrupts enabled. -/

namespace Ab32Vg1.Kernel

open ProofKit Rtos

def RT_MQ_ENTRY_MAX : Nat := 65535

def RT_IPC_CMD_RESET : Nat := 1

abbrev Byte := BitVec 8

/-- A `struct rt_mq_message`, named by its place in the pool. -/
abbrev MqNode := Nat

/-- `struct rt_messagequeue`, with the links and the payloads of the nodes of its pool. -/
structure MessageQueue where
  next : MqNode → Option MqNode
  payload : MqNode → Nat → Byte
  msg_size : Nat
  max_msgs : Nat
  entry : Nat
  msg_queue_head : Option MqNode
  msg_queue_tail : Option MqNode
  msg_queue_free : Option MqNode
  suspend_thread : Nat
  suspend_sender_thread : Nat
  flag : IpcFlag

/-- How the first part of an operation ends: with a node in its hands, unless it returns or
waits. -/
inductive MqTaken where
  | returned (err : Int)
  | suspended
  | took (msg : MqNode)
  deriving DecidableEq, Repr

namespace MessageQueue

/-- `msg->next = free; free = msg` -/
def putFree (mq : MessageQueue) (msg : MqNode) : MessageQueue :=
  { mq with next := Function.update mq.next msg mq.msg_queue_free, msg_queue_free := some msg }

/-- The part of `rt_mq_init` and `rt_mq_create` that sets up the lists. -/
def setup (mq : MessageQueue) (msg_size max_msgs : Nat) : MessageQueue :=
  let mq :=
    { mq with
      msg_size := RT_ALIGN msg_size RT_ALIGN_SIZE % 2 ^ 16
      max_msgs := max_msgs % 2 ^ 16
      msg_queue_head := none
      msg_queue_tail := none
      msg_queue_free := none }
  { (List.range mq.max_msgs).foldl putFree mq with entry := 0 }

/-- A node has a link of four bytes in front of its message. -/
def rt_mq_init (mq : MessageQueue) (msg_size pool_size : Nat) : MessageQueue :=
  mq.setup msg_size (pool_size / (RT_ALIGN msg_size RT_ALIGN_SIZE % 2 ^ 16 + 4))

def rt_mq_create (mq : MessageQueue) (msg_size max_msgs : Nat) : MessageQueue :=
  mq.setup msg_size max_msgs

/-! ### Sending -/

/-- The loop of `rt_mq_send_wait` up to its call of `rt_schedule`, and the node it takes. -/
def sendLoop (mq : MessageQueue) (s : Rtos) (timeout : Int) :
    Option (Rtos × MessageQueue × MqTaken) :=
  match mq.msg_queue_free with
  | none => do
    let thread ← s.rt_current_thread
    let s := s.setThread thread fun th => { th with error := RT_EOK }
    if timeout = 0 then return (s, mq, .returned (-RT_EFULL))
    else
      let s ← s.suspendOn mq.suspend_sender_thread thread mq.flag timeout
      return (s, mq, .suspended)
  | some msg => some (s, { mq with msg_queue_free := mq.next msg }, .took msg)

/-- `rt_mq_send_wait` up to its first call of `rt_schedule`, or up to its copy. -/
def rt_mq_send_wait (mq : MessageQueue) (s : Rtos) (size : Nat) (timeout : Int) :
    Option (Rtos × MessageQueue × MqTaken) := do
  RT_ASSERT (size ≠ 0)
  if mq.msg_size < size then return (s, mq, .returned (-RT_ERROR))
  else if mq.msg_queue_free = none ∧ timeout = 0 then return (s, mq, .returned (-RT_EFULL))
  else mq.sendLoop s timeout

/-- `rt_mq_send_wait` when its thread goes on after `rt_schedule`. -/
def sendResumed (mq : MessageQueue) (s : Rtos) (thread : Tid) (timeout : Int)
    (tick_delta tick : Nat) : Option (Rtos × MessageQueue × MqTaken) :=
  if (s.threads thread).error ≠ RT_EOK then
    some (s, mq, .returned (s.threads thread).error)
  else mq.sendLoop s (remainingTimeout timeout tick_delta tick)

/-- `rt_mq_urgent` up to its copy. -/
def rt_mq_urgent (mq : MessageQueue) (size : Nat) : Option (MessageQueue × MqTaken) := do
  RT_ASSERT (size ≠ 0)
  if mq.msg_size < size then return (mq, .returned (-RT_ERROR))
  else
    match mq.msg_queue_free with
    | none => return (mq, .returned (-RT_EFULL))
    | some msg => return ({ mq with msg_queue_free := mq.next msg }, .took msg)

/-- `msg->next = RT_NULL`, before the copy of `rt_mq_send_wait`. -/
def endLink (mq : MessageQueue) (msg : MqNode) : MessageQueue :=
  { mq with next := Function.update mq.next msg none }

/-- One byte of a copy into the node. -/
def storeByte (mq : MessageQueue) (msg : MqNode) (offset : Nat) (byte : Byte) : MessageQueue :=
  { mq with
    payload := Function.update mq.payload msg (Function.update (mq.payload msg) offset byte) }

/-- `rt_mq_send_wait` links the node as the last one. -/
def linkLast (mq : MessageQueue) (msg : MqNode) : MessageQueue :=
  { mq with
    next :=
      match mq.msg_queue_tail with
      | some tail => Function.update mq.next tail (some msg)
      | none => mq.next
    msg_queue_tail := some msg
    msg_queue_head := if mq.msg_queue_head = none then some msg else mq.msg_queue_head }

/-- `rt_mq_urgent` links the node as the first one. -/
def linkFirst (mq : MessageQueue) (msg : MqNode) : MessageQueue :=
  { mq with
    next := Function.update mq.next msg mq.msg_queue_head
    msg_queue_head := some msg
    msg_queue_tail := if mq.msg_queue_tail = none then some msg else mq.msg_queue_tail }

/-- The part of `rt_mq_send_wait` and `rt_mq_urgent` after their copy. -/
def link (mq : MessageQueue) (s : Rtos) (urgent : Bool) (msg : MqNode) :
    Option (Rtos × MessageQueue × Int) :=
  let mq := if urgent then mq.linkFirst msg else mq.linkLast msg
  if mq.entry < RT_MQ_ENTRY_MAX then do
    let mq := { mq with entry := mq.entry + 1 }
    let s ← s.resumeFirst mq.suspend_thread
    return (s, mq, RT_EOK)
  else some (s, mq, -RT_EFULL)

/-! ### Receiving -/

/-- `rt_mq_recv` takes the first node. -/
def takeFirst (mq : MessageQueue) (msg : MqNode) : MessageQueue :=
  { mq with
    msg_queue_head := mq.next msg
    msg_queue_tail := if mq.msg_queue_tail = some msg then none else mq.msg_queue_tail }

/-- The loop of `rt_mq_recv` up to its call of `rt_schedule`, and the node it takes. -/
def recvLoop (mq : MessageQueue) (s : Rtos) (timeout : Int) :
    Option (Rtos × MessageQueue × MqTaken) :=
  if mq.entry = 0 then do
    let thread ← s.rt_current_thread
    let s := s.setThread thread fun th => { th with error := RT_EOK }
    if timeout = 0 then
      let s := s.setThread thread fun th => { th with error := -RT_ETIMEOUT }
      return (s, mq, .returned (-RT_ETIMEOUT))
    else
      let s ← s.suspendOn mq.suspend_thread thread mq.flag timeout
      return (s, mq, .suspended)
  else do
    let msg ← mq.msg_queue_head
    let mq := mq.takeFirst msg
    return (s, { mq with entry := if 0 < mq.entry then mq.entry - 1 else mq.entry }, .took msg)

/-- `rt_mq_recv` up to its first call of `rt_schedule`, or up to its copy. -/
def rt_mq_recv (mq : MessageQueue) (s : Rtos) (size : Nat) (timeout : Int) :
    Option (Rtos × MessageQueue × MqTaken) := do
  RT_ASSERT (size ≠ 0)
  if mq.entry = 0 ∧ timeout = 0 then return (s, mq, .returned (-RT_ETIMEOUT))
  else mq.recvLoop s timeout

/-- `rt_mq_recv` when its thread goes on after `rt_schedule`. -/
def recvResumed (mq : MessageQueue) (s : Rtos) (thread : Tid) (timeout : Int)
    (tick_delta tick : Nat) : Option (Rtos × MessageQueue × MqTaken) :=
  if (s.threads thread).error ≠ RT_EOK then
    some (s, mq, .returned (s.threads thread).error)
  else mq.recvLoop s (remainingTimeout timeout tick_delta tick)

/-- The number of bytes that `rt_mq_recv` copies. -/
def copySize (mq : MessageQueue) (size : Nat) : Nat :=
  if mq.msg_size < size then mq.msg_size else size

/-- The part of `rt_mq_recv` after its copy. -/
def release (mq : MessageQueue) (s : Rtos) (msg : MqNode) : Option (Rtos × MessageQueue × Int) := do
  let s ← s.resumeFirst mq.suspend_sender_thread
  return (s, mq.putFree msg, RT_EOK)

/-! ### Reset -/

/-- The loop of `rt_mq_control`, at most `n` times. -/
def releaseAll : (n : Nat) → MessageQueue → Option MessageQueue
  | n, mq =>
    match mq.msg_queue_head, n with
    | none, _ => some mq
    | some _, 0 => none
    | some msg, n + 1 => releaseAll n ((mq.takeFirst msg).putFree msg)

/-- `rt_mq_control` up to its call of `rt_schedule`. -/
def rt_mq_control (mq : MessageQueue) (s : Rtos) (cmd : Nat) :
    Option (Rtos × MessageQueue × Int) :=
  if cmd = RT_IPC_CMD_RESET then do
    let s ← s.rt_ipc_list_resume_all mq.suspend_thread
    let s ← s.rt_ipc_list_resume_all mq.suspend_sender_thread
    let mq ← mq.releaseAll mq.max_msgs
    return (s, { mq with entry := 0 }, RT_EOK)
  else some (s, mq, -RT_ERROR)

end MessageQueue

/-! ### The machine -/

/-- Who is in an operation: a thread, or one of the interrupt handlers. -/
inductive MqCaller where
  | thread (t : Tid)
  | handler (n : Nat)
  deriving DecidableEq, Repr

/-- A message with a number of its own, as its send supplied it. -/
structure Message where
  id : Nat
  urgent : Bool
  bytes : List Byte
  deriving DecidableEq, Repr, Inhabited

/-- A message, and the buffer of its receiver when `rt_mq_recv` returns. -/
structure Delivery where
  message : Message
  buffer : List Byte
  deriving DecidableEq, Repr

/-- The abstract queue, with the messages that were ever linked, taken by a receiver, or discarded
by a reset, and those received. -/
structure MqHistory where
  queue : List Message
  linked : List Message
  taken : List Message
  discarded : List Message
  received : List Delivery

namespace MqHistory

def link (h : MqHistory) (urgent : Bool) (bytes : List Byte) : MqHistory :=
  let message : Message := ⟨h.linked.length, urgent, bytes⟩
  { h with
    queue := if urgent then message :: h.queue else h.queue ++ [message]
    linked := h.linked ++ [message] }

def first (h : MqHistory) : Message := h.queue.headD default

def take (h : MqHistory) : MqHistory :=
  { h with queue := h.queue.tail, taken := h.taken ++ [h.first] }

def discard (h : MqHistory) : MqHistory :=
  { h with queue := [], discarded := h.discarded ++ h.queue }

def receive (h : MqHistory) (message : Message) (buffer : List Byte) : MqHistory :=
  { h with received := h.received ++ [⟨message, buffer⟩] }

end MqHistory

/-- Where a caller is: outside, waiting for a node to send in, with a node whose link is not set
yet, copying into a node, waiting for a message, or copying out of a node. -/
inductive MqPc where
  | idle
  | sending (buffer : List Byte) (timeout : Int) (tick_delta : Nat)
  | linking (buffer : List Byte) (msg : MqNode)
  | storing (urgent : Bool) (buffer : List Byte) (msg : MqNode) (stored : Nat)
  | receiving (size : Nat) (timeout : Int) (tick_delta : Nat)
  | loading (size : Nat) (msg : MqNode) (buffer : List Byte) (message : Message)
  deriving DecidableEq, Repr

/-- The node in the hands of the caller. -/
def MqPc.held : MqPc → Option MqNode
  | .linking _ msg => some msg
  | .storing _ _ msg _ => some msg
  | .loading _ msg _ _ => some msg
  | _ => none

structure MqSystem where
  os : Rtos
  mq : MessageQueue
  tick : Nat
  pc : MqCaller → MqPc
  history : MqHistory

inductive MqStep where
  | send (o : MqCaller) (buffer : List Byte) (timeout : Int)
  | sendResumed (t : Tid)
  | urgent (o : MqCaller) (buffer : List Byte)
  | endLink (o : MqCaller)
  | storeByte (o : MqCaller)
  | link (o : MqCaller)
  | recv (o : MqCaller) (size : Nat) (timeout : Int)
  | recvResumed (t : Tid)
  | loadByte (o : MqCaller)
  | release (o : MqCaller)
  | control (cmd : Nat)
  | tick
  | schedule
  | other (os : Rtos)

/-- A thread goes on when it runs; a handler may interrupt every thread and every handler. -/
def MqCaller.Runs (s : Rtos) : MqCaller → Prop
  | .thread t => Kernel.Runs s t
  | .handler _ => True

instance (s : Rtos) (o : MqCaller) : Decidable (o.Runs s) :=
  match o with
  | .thread _ => inferInstanceAs (Decidable (Kernel.Runs ..))
  | .handler _ => inferInstanceAs (Decidable True)

/-- A handler cannot wait. -/
def MqCaller.MayWait (timeout : Int) : MqCaller → Prop
  | .thread _ => True
  | .handler _ => timeout = 0

instance (timeout : Int) (o : MqCaller) : Decidable (o.MayWait timeout) :=
  match o with
  | .thread _ => inferInstanceAs (Decidable True)
  | .handler _ => inferInstanceAs (Decidable (_ = _))

namespace MqSystem

def setPc (c : MqSystem) (o : MqCaller) (pc : MqPc) : MqSystem :=
  { c with pc := Function.update c.pc o pc }

/-- The caller is outside the operations and may begin one. -/
def MayCall (c : MqSystem) (o : MqCaller) (timeout : Int) : Prop :=
  c.pc o = .idle ∧ o.Runs c.os ∧ o.MayWait timeout

instance (c : MqSystem) (o : MqCaller) (timeout : Int) : Decidable (c.MayCall o timeout) :=
  inferInstanceAs (Decidable (_ ∧ _))

/-- After the first part of a send. -/
def afterSend (c : MqSystem) (o : MqCaller) (buffer : List Byte) (timeout : Int) :
    Rtos × MessageQueue × MqTaken → MqSystem
  | (os, mq, .returned _) => { c with os := os, mq := mq }.setPc o .idle
  | (os, mq, .suspended) => { c with os := os, mq := mq }.setPc o (.sending buffer timeout c.tick)
  | (os, mq, .took msg) => { c with os := os, mq := mq }.setPc o (.linking buffer msg)

/-- After the first part of an urgent send, whose node is linked when it is linked first. -/
def afterUrgent (c : MqSystem) (o : MqCaller) (buffer : List Byte) :
    MessageQueue × MqTaken → MqSystem
  | (mq, .took msg) => { c with mq := mq }.setPc o (.storing true buffer msg 0)
  | (mq, _) => { c with mq := mq }

/-- After the first part of a receive. -/
def afterRecv (c : MqSystem) (o : MqCaller) (size : Nat) (timeout : Int) :
    Rtos × MessageQueue × MqTaken → MqSystem
  | (os, mq, .returned _) => { c with os := os, mq := mq }.setPc o .idle
  | (os, mq, .suspended) => { c with os := os, mq := mq }.setPc o (.receiving size timeout c.tick)
  | (os, mq, .took msg) =>
    { c with os := os, mq := mq, history := c.history.take }.setPc o
      (.loading size msg [] c.history.first)

def send (c : MqSystem) (o : MqCaller) (buffer : List Byte) (timeout : Int) : Option MqSystem :=
  if c.MayCall o timeout then
    (c.mq.rt_mq_send_wait c.os buffer.length timeout).map (c.afterSend o buffer timeout)
  else none

def sendResumed (c : MqSystem) (t : Tid) : Option MqSystem :=
  match c.pc (.thread t) with
  | .sending buffer timeout tick_delta =>
    if Kernel.Runs c.os t then
      (c.mq.sendResumed c.os t timeout tick_delta c.tick).map
        (c.afterSend (.thread t) buffer (remainingTimeout timeout tick_delta c.tick))
    else none
  | _ => none

def urgent (c : MqSystem) (o : MqCaller) (buffer : List Byte) : Option MqSystem :=
  if c.MayCall o 0 then (c.mq.rt_mq_urgent buffer.length).map (c.afterUrgent o buffer) else none

def endLink (c : MqSystem) (o : MqCaller) : Option MqSystem :=
  match c.pc o with
  | .linking buffer msg =>
    if o.Runs c.os then
      some ({ c with mq := c.mq.endLink msg }.setPc o (.storing false buffer msg 0))
    else none
  | _ => none

def storeByte (c : MqSystem) (o : MqCaller) : Option MqSystem :=
  match c.pc o with
  | .storing urgent buffer msg stored =>
    if o.Runs c.os then do
      let byte ← buffer[stored]?
      return { c with mq := c.mq.storeByte msg stored byte }.setPc o
        (.storing urgent buffer msg (stored + 1))
    else none
  | _ => none

def link (c : MqSystem) (o : MqCaller) : Option MqSystem :=
  match c.pc o with
  | .storing urgent buffer msg stored =>
    if o.Runs c.os ∧ stored = buffer.length then do
      let (os, mq, _) ← c.mq.link c.os urgent msg
      return { c with os := os, mq := mq, history := c.history.link urgent buffer }.setPc o .idle
    else none
  | _ => none

def recv (c : MqSystem) (o : MqCaller) (size : Nat) (timeout : Int) : Option MqSystem :=
  if c.MayCall o timeout then
    (c.mq.rt_mq_recv c.os size timeout).map (c.afterRecv o size timeout)
  else none

def recvResumed (c : MqSystem) (t : Tid) : Option MqSystem :=
  match c.pc (.thread t) with
  | .receiving size timeout tick_delta =>
    if Kernel.Runs c.os t then
      (c.mq.recvResumed c.os t timeout tick_delta c.tick).map
        (c.afterRecv (.thread t) size (remainingTimeout timeout tick_delta c.tick))
    else none
  | _ => none

def loadByte (c : MqSystem) (o : MqCaller) : Option MqSystem :=
  match c.pc o with
  | .loading size msg buffer message =>
    if o.Runs c.os ∧ buffer.length < c.mq.copySize size then
      some (c.setPc o (.loading size msg (buffer ++ [c.mq.payload msg buffer.length]) message))
    else none
  | _ => none

def release (c : MqSystem) (o : MqCaller) : Option MqSystem :=
  match c.pc o with
  | .loading size msg buffer message =>
    if o.Runs c.os ∧ buffer.length = c.mq.copySize size then do
      let (os, mq, _) ← c.mq.release c.os msg
      return { c with os := os, mq := mq, history := c.history.receive message buffer }.setPc o .idle
    else none
  | _ => none

def control (c : MqSystem) (cmd : Nat) : Option MqSystem := do
  let (os, mq, err) ← c.mq.rt_mq_control c.os cmd
  let c := { c with os := os, mq := mq }
  if err = RT_EOK then return { c with history := c.history.discard } else return c

/-- Nothing else that the system does touches the queue. -/
def step (c : MqSystem) : MqStep → Option MqSystem
  | .send o buffer timeout => c.send o buffer timeout
  | .sendResumed t => c.sendResumed t
  | .urgent o buffer => c.urgent o buffer
  | .endLink o => c.endLink o
  | .storeByte o => c.storeByte o
  | .link o => c.link o
  | .recv o size timeout => c.recv o size timeout
  | .recvResumed t => c.recvResumed t
  | .loadByte o => c.loadByte o
  | .release o => c.release o
  | .control cmd => c.control cmd
  | .tick => some { c with tick := add32 c.tick 1 }
  | .schedule => c.os.rt_schedule.map fun os => { c with os := os }
  | .other os => some { c with os := os }

/-- A message queue that was set up and is used by nobody. -/
structure Fresh (c : MqSystem) : Prop where
  mq : ∃ mq : MessageQueue, (∃ msg_size pool_size, c.mq = mq.rt_mq_init msg_size pool_size) ∨
    ∃ msg_size max_msgs, c.mq = mq.rt_mq_create msg_size max_msgs
  pc : ∀ o, c.pc o = .idle
  history : c.history = ⟨[], [], [], [], []⟩

/-- The caller takes the first message of the queue. -/
def Takes (c : MqSystem) (o : MqCaller) (c' : MqSystem) : Prop :=
  ∃ size msg message queue, c.history.queue = message :: queue ∧
    c'.pc o = .loading size msg [] message ∧
    c'.history = { c.history with queue := queue, taken := c.history.taken ++ [message] }

/-- The operations of the abstract queue: a message is added where its node is linked, the first
one leaves where a receiver takes a node, and a reset removes all. -/
def Refines (c : MqSystem) (l : MqStep) (c' : MqSystem) : Prop :=
  match l with
  | .link o => ∃ urgent buffer msg stored, c.pc o = .storing urgent buffer msg stored ∧
      c'.history = c.history.link urgent buffer
  | .recv o _ _ => c'.history = c.history ∨ c.Takes o c'
  | .recvResumed t => c'.history = c.history ∨ c.Takes (.thread t) c'
  | .release o => ∃ size msg buffer message, c.pc o = .loading size msg buffer message ∧
      buffer.length = min size c.mq.msg_size ∧ c'.history = c.history.receive message buffer
  | .control cmd => c'.history = if cmd = RT_IPC_CMD_RESET then c.history.discard else c.history
  | _ => c'.history = c.history

end MqSystem

def mqMachine : Machine MqSystem MqStep where
  start := MqSystem.Fresh
  step c l c' := c.step l = some c'

/-- The node holds the message. -/
def MessageQueue.Carries (mq : MessageQueue) (msg : MqNode) (bytes : List Byte) : Prop :=
  ∀ i (h : i < bytes.length), mq.payload msg i = bytes[i]

/-- No node is lost or in two places, and the messages are received whole and in order. -/
structure MqContract (c : MqSystem) (free messages : List MqNode) : Prop where
  free_links : Linked c.mq.next c.mq.msg_queue_free free
  links : Linked c.mq.next c.mq.msg_queue_head messages
  ends : c.mq.msg_queue_head = messages.head? ∧ c.mq.msg_queue_tail = messages.getLast?
  entry : c.mq.entry = messages.length
  disjoint : (free ++ messages).Nodup
  held : ∀ o msg, (c.pc o).held = some msg →
    msg ∉ free ++ messages ∧ ∀ o', (c.pc o').held = some msg → o' = o
  pool : ∀ msg, msg < c.mq.max_msgs ↔ msg ∈ free ++ messages ∨ ∃ o, (c.pc o).held = some msg
  queue : List.Forall₂ (fun msg message => c.mq.Carries msg message.bytes) messages c.history.queue
  once : (c.history.taken ++ c.history.discarded ++ c.history.queue).Perm c.history.linked ∧
    (c.history.linked.map Message.id).Nodup
  order : ((c.history.taken ++ c.history.queue).filter (!·.urgent)).Pairwise (·.id < ·.id)
  urgent_first : c.history.queue.Pairwise fun m n => n.urgent → m.urgent ∧ n.id < m.id
  received : ∀ d ∈ c.history.received, d.message ∈ c.history.taken ∧
    d.message.bytes.take d.buffer.length <+: d.buffer
  refines : ∀ l c', mqMachine.step c l c' → c.Refines l c'

end Ab32Vg1.Kernel
