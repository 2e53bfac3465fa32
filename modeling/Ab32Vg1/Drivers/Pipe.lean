import Ab32Vg1.Kernel.Thread
import Ab32Vg1.Drivers.RingBuffer

/-! The POSIX side of `pipe.c` over the wait queues of `waitqueue.c`: readers and writers are counted,
the bytes go through a ring buffer, and a caller that finds none, or no room, waits and tries again.
What a caller does while it holds `lock` is one step. -/

namespace Ab32Vg1.Drivers

open ProofKit Kernel

/-! ### Wait queues -/

/-- `rt_wqueue_t`: the flag is `RT_WQ_FLAG_WAKEUP` or clean. -/
structure WaitQueue where
  flag : Bool
  waiting_list : List Tid

namespace WaitQueue

/-- `rt_wqueue_wakeup`, whose nodes all have `__wqueue_default_wake`: the first waiting thread goes
on. -/
def rt_wqueue_wakeup (q : WaitQueue) : WaitQueue :=
  { flag := true, waiting_list := q.waiting_list.tail }

/-- `rt_wqueue_wait` up to its call of `rt_schedule`, and whether the thread sleeps. -/
def rt_wqueue_wait (q : WaitQueue) (tid : Tid) : WaitQueue × Bool :=
  if q.flag then ({ q with flag := false }, false)
  else ({ q with waiting_list := q.waiting_list ++ [tid] }, true)

/-- `rt_wqueue_wait` when its thread goes on after `rt_schedule`. -/
def waitResumed (q : WaitQueue) (tid : Tid) : WaitQueue :=
  { flag := false, waiting_list := q.waiting_list.erase tid }

end WaitQueue

/-! ### The device -/

/-- `rt_ringbuffer_create`; `pool` is the memory that `rt_malloc` returns, if any. -/
def rt_ringbuffer_create (size : Nat) (pool : Option Bytes) : Option (Option RingBuffer) := do
  RT_ASSERT (0 < size)
  match pool with
  | none => return none
  | some pool =>
    -- the size of `rt_ringbuffer_init` has 16 signed bits
    RT_ASSERT (0 < size / 8 * 8 ∧ size / 8 * 8 < 2 ^ 15)
    return some (rt_ringbuffer_init pool (size / 8 * 8))

/-- `fd->flags & O_ACCMODE`. -/
inductive AccMode
  | O_RDONLY
  | O_WRONLY
  | O_RDWR
  deriving DecidableEq, Repr

open AccMode

def AccMode.reads : AccMode → Bool
  | O_RDONLY | O_RDWR => true
  | O_WRONLY => false

def AccMode.writes : AccMode → Bool
  | O_WRONLY | O_RDWR => true
  | O_RDONLY => false

def RT_ENOMEM : Int := 5

def EAGAIN : Int := 11

def EPIPE : Int := 32

/-- `struct rt_pipe_device`; the counts have 8 bits. -/
structure PipeDevice where
  is_named : Bool
  fifo : Option RingBuffer
  bufsz : Nat
  readers : Nat
  writers : Nat
  ref_count : Nat
  reader_queue : WaitQueue
  writer_queue : WaitQueue

namespace PipeDevice

/-- The bytes in the ring buffer. -/
def content (pipe : PipeDevice) : List UInt8 :=
  match pipe.fifo with
  | some fifo => fifo.content
  | none => []

/-- `rt_pipe_create`. -/
def rt_pipe_create (is_named : Bool) (bufsz : Nat) : PipeDevice where
  is_named := is_named
  fifo := none
  bufsz := bufsz
  readers := 0
  writers := 0
  ref_count := 0
  reader_queue := ⟨false, []⟩
  writer_queue := ⟨false, []⟩

/-- The ring buffer of a pipe that is opened: its first descriptor creates one. -/
def openFifo (pipe : PipeDevice) (pool : Option Bytes) : Option (Option RingBuffer) :=
  if pipe.ref_count = 0 then rt_ringbuffer_create pipe.bufsz pool else some pipe.fifo

/-- `pipe_fops_open` and the code that it returns. -/
def pipe_fops_open (pipe : PipeDevice) (flags : AccMode) (pool : Option Bytes) :
    Option (PipeDevice × Int) := do
  let fifo ← pipe.openFifo pool
  if pipe.ref_count = 0 ∧ fifo.isNone then return ({ pipe with fifo := fifo }, (- RT_ENOMEM))
  else
    return ({ pipe with
      fifo := fifo
      readers := if flags.reads then (pipe.readers + 1) % 256 else pipe.readers
      writers := if flags.writes then (pipe.writers + 1) % 256 else pipe.writers
      ref_count := (pipe.ref_count + 1) % 256 }, 0)

/-- `pipe_fops_close` before it deletes an unnamed pipe. -/
def pipe_fops_close (pipe : PipeDevice) (flags : AccMode) : PipeDevice :=
  let readers := if flags.reads then (pipe.readers + 255) % 256 else pipe.readers
  let writers := if flags.writes then (pipe.writers + 255) % 256 else pipe.writers
  { pipe with
    readers := readers
    writers := writers
    reader_queue := if writers = 0 then pipe.reader_queue.rt_wqueue_wakeup else pipe.reader_queue
    writer_queue := if readers = 0 then pipe.writer_queue.rt_wqueue_wakeup else pipe.writer_queue
    fifo := if pipe.ref_count = 1 then none else pipe.fifo
    ref_count := (pipe.ref_count + 255) % 256 }

/-- One turn of the loop of `pipe_fops_read`: the bytes that it stores, and the value that it returns
unless it is to wait. -/
def readTurn (pipe : PipeDevice) (nonblock : Bool) (buf : Bytes) (count : Nat) :
    Option (PipeDevice × List UInt8 × Option Int) :=
  if pipe.writers = 0 then some (pipe, [], some 0)
  else do
    let fifo ← pipe.fifo
    let (fifo, buf, len) := rt_ringbuffer_get fifo buf (count % 2 ^ 16)
    let pipe := { pipe with fifo := some fifo }
    if 0 < len then
      return ({ pipe with writer_queue := pipe.writer_queue.rt_wqueue_wakeup }, buf.range 0 len,
        some (len : Int))
    else if nonblock then return (pipe, [], some (- EAGAIN))
    else return (pipe, [], none)

/-- One turn of the loop of `pipe_fops_write`, `ret` bytes in: the bytes that it takes, `wakeup`, and
the value that it returns unless it is to wait. -/
def writeTurn (pipe : PipeDevice) (nonblock : Bool) (buf : Bytes) (count ret : Nat) (wakeup : Bool) :
    Option (PipeDevice × List UInt8 × Bool × Option Int) :=
  if pipe.readers = 0 then
    some (pipe, [], wakeup, some (if ret = 0 then - EPIPE else (ret : Int)))
  else do
    let fifo ← pipe.fifo
    let pbuf : Bytes := fun i => buf (ret + i)
    let (fifo, len) := rt_ringbuffer_put fifo pbuf ((count - ret) % 2 ^ 16)
    let pipe := { pipe with fifo := some fifo }
    let ret := ret + len
    if ret = count then return (pipe, pbuf.range 0 len, true, some (ret : Int))
    else if nonblock then
      return (pipe, pbuf.range 0 len, true, some (if ret = 0 then - EAGAIN else (ret : Int)))
    else return (pipe, pbuf.range 0 len, true, none)

end PipeDevice

/-! ### The machine -/

/-- An open descriptor of the pipe. -/
structure PipeFd where
  id : Nat
  acc_mode : AccMode
  nonblock : Bool
  deriving DecidableEq, Repr

/-- The arguments of a read or a write and, for a write, how far it has come. -/
inductive PipeOp where
  | read (fd : PipeFd) (buf : Bytes) (count : Nat)
  | write (fd : PipeFd) (buf : Bytes) (count ret : Nat) (wakeup : Bool)

/-- Where the caller of a read or a write is: about to take the lock, to wake the other side, to wait,
asleep, or about to wake the readers and return. -/
inductive PipePhase where
  | lock
  | wake
  | wait
  | asleep
  | finish
  deriving DecidableEq, Repr

/-- The value that a read or a write returns. -/
inductive PipeResult where
  | read (ret : Int)
  | write (ret : Int)
  deriving DecidableEq, Repr

/-- The pipe, its open descriptors and its callers; `accepted` are the bytes that writes put in and
`returned` those that reads got, in the order in which they did. -/
structure PipeSystem where
  pipe : PipeDevice
  registered : Bool
  fds : List PipeFd
  pc : Tid → Option (PipeOp × PipePhase)
  accepted : List UInt8
  returned : List UInt8

inductive PipeStep where
  | open (fd : PipeFd) (pool : Option Bytes)
  | close (fd : PipeFd)
  | read (t : Tid) (fd : PipeFd) (buf : Bytes) (count : Nat)
  | write (t : Tid) (fd : PipeFd) (buf : Bytes) (count : Nat)
  | locked (t : Tid)
  | wake (t : Tid)
  | wait (t : Tid)
  | woken (t : Tid)

namespace PipeStep

def Opens : PipeStep → Bool
  | .open _ _ => true
  | _ => false

def Closes : PipeStep → Bool
  | .close _ => true
  | _ => false

end PipeStep

namespace PipeSystem

def setPc (c : PipeSystem) (t : Tid) (pc : Option (PipeOp × PipePhase)) : PipeSystem :=
  { c with pc := Function.update c.pc t pc }

/-- A read with the lock: it stores bytes and returns, or goes on to wait. -/
def readLocked (c : PipeSystem) (t : Tid) (fd : PipeFd) (buf : Bytes) (count : Nat) :
    Option (PipeSystem × Option PipeResult) :=
  (c.pipe.readTurn fd.nonblock buf count).map fun (pipe, bytes, ret) =>
    let c := { c with pipe := pipe, returned := c.returned ++ bytes }
    match ret with
    | some ret => (c.setPc t none, some (.read ret))
    | none => (c.setPc t (some (.read fd buf count, .wake)), none)

/-- A write with the lock. -/
def writeLocked (c : PipeSystem) (t : Tid) (fd : PipeFd) (buf : Bytes) (count ret : Nat)
    (wakeup : Bool) : Option (PipeSystem × Option PipeResult) :=
  (c.pipe.writeTurn fd.nonblock buf count ret wakeup).map fun (pipe, bytes, wakeup, result) =>
    let c := { c with pipe := pipe, accepted := c.accepted ++ bytes }
    let op := PipeOp.write fd buf count (ret + bytes.length) wakeup
    match result with
    | some result =>
      (c.setPc t (if wakeup then some (op, .finish) else none), some (.write result))
    | none => (c.setPc t (some (op, .wake)), none)

/-- The queue that an operation waits in, and the change of a queue. -/
def mapQueue (c : PipeSystem) (op : PipeOp) (own : Bool) (f : WaitQueue → WaitQueue) : PipeSystem :=
  match op, own with
  | .read .., true | .write .., false =>
    { c with pipe := { c.pipe with reader_queue := f c.pipe.reader_queue } }
  | .read .., false | .write .., true =>
    { c with pipe := { c.pipe with writer_queue := f c.pipe.writer_queue } }

def queue (c : PipeSystem) : PipeOp → WaitQueue
  | .read .. => c.pipe.reader_queue
  | .write .. => c.pipe.writer_queue

/-- A step, and the value that a read or a write returns in it. -/
def next (c : PipeSystem) : PipeStep → Option (PipeSystem × Option PipeResult)
  | .open fd pool =>
    if c.registered then
      (c.pipe.pipe_fops_open fd.acc_mode pool).map fun (pipe, rc) =>
        ({ c with pipe := pipe, fds := if rc = 0 then fd :: c.fds else c.fds }, none)
    else none
  | .close fd =>
    if fd ∈ c.fds then
      let pipe := c.pipe.pipe_fops_close fd.acc_mode
      -- an unnamed pipe is deleted with its last descriptor
      some ({ c with
        pipe := pipe, fds := c.fds.erase fd
        registered := c.registered && !(decide (pipe.ref_count = 0) && !pipe.is_named) }, none)
    else none
  | .read t fd buf count =>
    if fd ∈ c.fds ∧ c.pc t = none then
      if c.pipe.writers = 0 then some (c, some (.read 0))
      else some (c.setPc t (some (.read fd buf count, .lock)), none)
    else none
  | .write t fd buf count =>
    if fd ∈ c.fds ∧ c.pc t = none then
      if c.pipe.readers = 0 then some (c, some (.write (- EPIPE)))
      else if count = 0 then some (c, some (.write 0))
      else some (c.setPc t (some (.write fd buf count 0 false, .lock)), none)
    else none
  | .locked t =>
    match c.pc t with
    | some (.read fd buf count, .lock) => c.readLocked t fd buf count
    | some (.write fd buf count ret wakeup, .lock) => c.writeLocked t fd buf count ret wakeup
    | _ => none
  | .wake t =>
    match c.pc t with
    | some (op, .wake) =>
      some ((c.mapQueue op false WaitQueue.rt_wqueue_wakeup).setPc t (some (op, .wait)), none)
    | some (op, .finish) =>
      some ((c.mapQueue op false WaitQueue.rt_wqueue_wakeup).setPc t none, none)
    | _ => none
  | .wait t =>
    match c.pc t with
    | some (op, .wait) =>
      let sleeps := ((c.queue op).rt_wqueue_wait t).2
      some ((c.mapQueue op true fun q => (q.rt_wqueue_wait t).1).setPc t
        (some (op, if sleeps then .asleep else .lock)), none)
    | _ => none
  | .woken t =>
    match c.pc t with
    | some (op, .asleep) =>
      if t ∈ (c.queue op).waiting_list then none
      else some ((c.mapQueue op true fun q => q.waitResumed t).setPc t (some (op, .lock)), none)
    | _ => none

def step (c : PipeSystem) (l : PipeStep) : Option PipeSystem := (c.next l).map Prod.fst

def result (c : PipeSystem) (l : PipeStep) : Option PipeResult := (c.next l).bind Prod.snd

/-- The steps in which `pipe_fops_read` looks at `writers`. -/
def Reads (c : PipeSystem) : PipeStep → Bool
  | .read .. => true
  | .locked t =>
    match c.pc t with
    | some (.read .., .lock) => true
    | _ => false
  | _ => false

/-- The steps that the counts and the look at `writers` allow for: fewer than 256 descriptors, no
bytes left when a read finds no writer, and none left when the last descriptor is closed. -/
def Sound (c : PipeSystem) (l : PipeStep) : Prop :=
  (l.Opens = true → c.fds.length < 255) ∧
    (l.Closes = true → c.fds.length = 1 → c.pipe.content = []) ∧
    (c.Reads l = true → c.pipe.writers = 0 → c.pipe.content = [])

instance (c : PipeSystem) (l : PipeStep) : Decidable (c.Sound l) :=
  inferInstanceAs (Decidable (_ ∧ _ ∧ _))

/-- A pipe that has just been created. -/
structure Fresh (c : PipeSystem) : Prop where
  pipe : ∃ is_named bufsz, bufsz < 0xFFFF ∧ c.pipe = PipeDevice.rt_pipe_create is_named bufsz
  fds : c.fds = []
  pc : ∀ t, c.pc t = none
  accepted : c.accepted = []
  returned : c.returned = []

end PipeSystem

def pipeMachine : Machine PipeSystem PipeStep where
  start := PipeSystem.Fresh
  step c l c' := c.step l = some c'

/-- The pipe delivers what it accepts, and says that an end is closed only when it is. -/
structure PipeContract (c : PipeSystem) : Prop where
  in_order : c.accepted = c.returned ++ c.pipe.content
  eof : ∀ l, c.Sound l → c.result l = some (.read 0) →
    (∀ fd ∈ c.fds, fd.acc_mode.writes = false) ∧ c.returned = c.accepted
  epipe : ∀ l, c.result l = some (.write (- EPIPE)) →
    ∀ fd ∈ c.fds, fd.acc_mode.reads = false

end Ab32Vg1.Drivers
