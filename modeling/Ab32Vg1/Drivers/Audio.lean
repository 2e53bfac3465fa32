import Ab32Vg1.Drivers.Sound
import Ab32Vg1.ProofKit.ByteMemory
import Ab32Vg1.ProofKit.Fuel
import Ab32Vg1.ProofKit.Transition

/-! The replay stream of `audio.c`: an application writes blocks into a queue, and the audio thread
sends them to the hardware frame by frame. -/

namespace Ab32Vg1.Drivers

open Kernel ProofKit

def RT_AUDIO_REPLAY_MP_BLOCK_SIZE : Nat := 4096

def RT_AUDIO_REPLAY_MP_BLOCK_COUNT : Nat := 2

def CFG_AUDIO_REPLAY_QUEUE_COUNT : Nat := 4

/-- `struct rt_audio_buf_info` without its buffer. -/
structure AudioBufInfo where
  block_size : Nat
  total_size : Nat
  block_size_pos : 0 < block_size
  total_size_pos : 0 < total_size
  dvd : block_size ∣ total_size
  total_size_lt : total_size < 65536

/-- The two blocks of `tx_fifo`. -/
def sound_buffer_info : AudioBufInfo :=
  ⟨TX_FIFO_SIZE / 2, TX_FIFO_SIZE, by decide, by decide, by decide, by decide⟩

/-- An item of the data queue; `data_ptr` stands for the block that it points to. -/
structure DataItem where
  data_ptr : Bytes
  data_size : Nat

def DataItem.bytes (item : DataItem) : List UInt8 := item.data_ptr.range 0 item.data_size

/-- `struct rt_audio_replay`: `mp` counts the free blocks of the memory pool, `buffer` is the buffer
of `buf_info`, and `event` tells whether `REPLAY_EVT_STOP` is set.  `copied` records where each
`memset` and `memcpy` into `buffer` went. -/
structure AudioReplay where
  mp : Nat
  queue : List DataItem
  cmp : Bool
  buf_info : AudioBufInfo
  buffer : Bytes
  write_data : Bytes
  write_index : Nat
  read_index : Nat
  pos : Nat
  event : Bool
  activated : Bool
  copied : List (Nat × Nat)

namespace AudioReplay

/-! ### `_audio_send_replay_frame` -/

/-- `memset(&buf_info->buffer[pos], 0, dst_size)`. -/
def clearFrame (r : AudioReplay) : AudioReplay :=
  { r with
    buffer := r.buffer.fill r.pos 0 r.buf_info.block_size
    copied := (r.pos, r.buf_info.block_size) :: r.copied }

/-- The `memcpy` of a part of an item, and the indices after it. -/
def copyItem (r : AudioReplay) (item : DataItem) (remain_bytes : Nat) : AudioReplay :=
  { r with
    buffer := r.buffer.blit r.pos item.data_ptr r.read_index remain_bytes
    copied := (r.pos, remain_bytes) :: r.copied
    read_index := (r.read_index + remain_bytes) % 65536
    pos := (r.pos + remain_bytes) % 2 ^ 32 % r.buf_info.total_size }

/-- The first item is used up. -/
def popItem (r : AudioReplay) (queue : List DataItem) : AudioReplay :=
  { r with read_index := 0, queue := queue, mp := r.mp + 1 }

/-- The end of a frame for which the queue has too little. -/
def underRun (r : AudioReplay) (remain_bytes : Nat) : AudioReplay :=
  { r with
    pos := (sub32 r.pos remain_bytes + r.buf_info.block_size) % 2 ^ 32 % r.buf_info.total_size
    read_index := 0 }

/-- The loop that fills a frame; it also returns whether the queue ran empty. -/
def sendLoop : (fuel : Nat) → (r : AudioReplay) → (index remain_bytes : Nat) →
    Option (AudioReplay × Bool)
  | 0, _, _, _ => none
  | fuel + 1, r, index, remain_bytes =>
    if index < r.buf_info.block_size then
      match r.queue with
      | [] => some (r.underRun remain_bytes, true)
      | item :: queue =>
        let remain_bytes :=
          min (r.buf_info.block_size - index) (sub32 item.data_size r.read_index) % 65536
        let index := (index + remain_bytes) % 65536
        let r := r.copyItem item remain_bytes
        if r.read_index = item.data_size then sendLoop fuel (r.popItem queue) index remain_bytes
        else sendLoop fuel r index remain_bytes
    else some (r, false)

/-- A frame of zeros, when the queue is empty from the start. -/
def sendZeros (r : AudioReplay) : AudioReplay :=
  let r := { r with cmp := r.event || r.cmp }.clearFrame
  { r with pos := (r.pos + r.buf_info.block_size) % 2 ^ 32 % r.buf_info.total_size }

/-- The frame up to the call of `transmit`, and whether the queue ran empty. -/
def fillFrame (fuel : Nat) (r : AudioReplay) : Option (AudioReplay × Bool) :=
  match r.queue with
  | [] => some (r.sendZeros, true)
  | _ :: _ => sendLoop fuel r.clearFrame 0 0

/-! ### `_audio_dev_write` -/

/-- A block from the memory pool, cleared. -/
def allocBlock (r : AudioReplay) : Option AudioReplay :=
  if r.write_index % RT_AUDIO_REPLAY_MP_BLOCK_SIZE = 0 then
    if 0 < r.mp then
      some { r with
        mp := r.mp - 1
        write_data := r.write_data.fill 0 0 RT_AUDIO_REPLAY_MP_BLOCK_SIZE }
    else none
  else some r

/-- The bytes that a turn of the loop copies. -/
def writeCount (r : AudioReplay) (size index : Nat) : Nat :=
  min (RT_AUDIO_REPLAY_MP_BLOCK_SIZE - r.write_index) (size - index) % 65536

def copyBlock (r : AudioReplay) (buffer : Bytes) (index remain_bytes : Nat) : AudioReplay :=
  { r with
    write_data := r.write_data.blit r.write_index buffer index remain_bytes
    write_index := (r.write_index + remain_bytes) % 65536 % RT_AUDIO_REPLAY_MP_BLOCK_SIZE }

/-- `rt_data_queue_push`, which waits while the queue is full. -/
def push (r : AudioReplay) (size : Nat) : Option AudioReplay :=
  if r.queue.length < CFG_AUDIO_REPLAY_QUEUE_COUNT then
    some { r with queue := r.queue ++ [⟨r.write_data, size⟩] }
  else none

/-! ### What is in the queue -/

/-- The bytes of the queue that are still to be sent. -/
def queued (r : AudioReplay) : List UInt8 := (r.queue.flatMap DataItem.bytes).drop r.read_index

/-- The queue has enough for a frame, or it holds one item at most. -/
def Fits (r : AudioReplay) : Prop :=
  r.buf_info.block_size ≤ (r.queue.map DataItem.data_size).sum - r.read_index ∨ r.queue.length ≤ 1

instance (r : AudioReplay) : Decidable r.Fits := inferInstanceAs (Decidable (_ ∨ _))

end AudioReplay

/-! ### The machine -/

/-- Where the application is, in `_audio_dev_write` or in `_aduio_replay_stop`. -/
inductive WriterPc where
  | idle
  | writing (buffer : Bytes) (size index : Nat)
  | pushing (buffer : Bytes) (size index : Nat)
  | flush
  | setStop
  | initCmp
  | waitCmp
  | clearStop

/-- A frame as it was handed to `transmit`, and whether the queue ran empty in it. -/
structure SentFrame where
  data : List UInt8
  under_run : Bool

/-- A replay stream with the bytes written to it and the frames sent so far. -/
structure Playback where
  replay : AudioReplay
  pc : WriterPc
  written : List UInt8
  frames : List SentFrame

inductive PlaybackStep where
  | devOpen
  | write (buffer : Bytes) (size : Nat)
  | stop
  | app
  | frame

namespace Playback

/-- `_audio_dev_open` for writing. -/
def audio_dev_open (c : Playback) : Playback :=
  if c.replay.activated then c
  else { c with
    replay := { c.replay with write_index := 0, read_index := 0, pos := 0, event := false } }

/-- `_audio_send_replay_frame`. -/
def audio_send_replay_frame (fuel : Nat) (c : Playback) : Option Playback :=
  let position := c.replay.pos % 65536
  (c.replay.fillFrame fuel).map fun (r, under_run) =>
    { c with
      replay := r
      frames := c.frames ++ [⟨r.buffer.range position r.buf_info.block_size, under_run⟩] }

/-- A turn of the loop of `_audio_dev_write`, or what follows the loop. -/
def writeTurn (c : Playback) (buffer : Bytes) (size index : Nat) : Option Playback :=
  if index < size then
    c.replay.allocBlock.map fun r =>
      let remain_bytes := r.writeCount size index
      let r := r.copyBlock buffer index remain_bytes
      let index := (index + remain_bytes) % 65536
      { c with
        replay := r
        pc := if r.write_index = 0 then .pushing buffer size index else .writing buffer size index }
  else some { c with replay := { c.replay with activated := true }, pc := .idle }

/-- `_audio_flush_replay_frame`. -/
def audio_flush_replay_frame (r : AudioReplay) : Option AudioReplay :=
  if r.write_index ≠ 0 then (r.push r.write_index).map fun r => { r with write_index := 0 }
  else some r

/-- The next step of the application. -/
def runApp (c : Playback) : Option Playback :=
  match c.pc with
  | .idle => none
  | .writing buffer size index => c.writeTurn buffer size index
  | .pushing buffer size index =>
    (c.replay.push RT_AUDIO_REPLAY_MP_BLOCK_SIZE).map fun r =>
      { c with replay := r, pc := .writing buffer size index }
  | .flush => (audio_flush_replay_frame c.replay).map fun r => { c with replay := r, pc := .setStop }
  | .setStop => some { c with replay := { c.replay with event := true }, pc := .initCmp }
  | .initCmp => some { c with replay := { c.replay with cmp := false }, pc := .waitCmp }
  | .waitCmp =>
    if c.replay.cmp then some { c with replay := { c.replay with cmp := false }, pc := .clearStop }
    else none
  | .clearStop =>
    some { c with replay := { c.replay with event := false, activated := false }, pc := .idle }

def isIdle (c : Playback) : Bool := c.pc matches .idle

def step (fuel : Nat) (c : Playback) : PlaybackStep → Option Playback
  | .devOpen => if c.isIdle then some c.audio_dev_open else none
  | .write buffer size =>
    if c.isIdle then
      some { c with pc := .writing buffer size 0, written := c.written ++ buffer.range 0 size }
    else none
  | .stop => if c.isIdle ∧ c.replay.activated then some { c with pc := .flush } else none
  | .app => c.runApp
  | .frame => c.audio_send_replay_frame fuel

/-- As `_audio_dev_init` leaves it. -/
structure Fresh (c : Playback) : Prop where
  idle : c.pc = .idle
  mp : c.replay.mp = RT_AUDIO_REPLAY_MP_BLOCK_COUNT
  queue : c.replay.queue = []
  inactive : c.replay.activated = false
  indices : c.replay.write_index = 0 ∧ c.replay.read_index = 0 ∧ c.replay.pos = 0
  copied : c.replay.copied = []
  written : c.written = []
  frames : c.frames = []

/-- A write has less than 65536 bytes, and a frame that the queue cannot fill finds one item in it
at most. -/
def Allowed (c : Playback) : PlaybackStep → Prop
  | .write _ size => size < 65536
  | .frame => c.replay.Fits
  | _ => True

instance (c : Playback) : (l : PlaybackStep) → Decidable (c.Allowed l)
  | .write _ size => inferInstanceAs (Decidable (size < 65536))
  | .frame => inferInstanceAs (Decidable c.replay.Fits)
  | .devOpen | .stop | .app => isTrue trivial

/-- The bytes of the block that is being filled. -/
def pending (c : Playback) : List UInt8 :=
  match c.pc with
  | .pushing _ _ _ => c.replay.write_data.range 0 RT_AUDIO_REPLAY_MP_BLOCK_SIZE
  | _ => c.replay.write_data.range 0 c.replay.write_index

/-- The bytes that the present write has yet to copy. -/
def rest (c : Playback) : List UInt8 :=
  match c.pc with
  | .writing buffer size index | .pushing buffer size index => buffer.range index (size - index)
  | _ => []

/-- The bytes that are written and not yet sent. -/
def left (c : Playback) : List UInt8 := c.replay.queued ++ c.pending ++ c.rest

end Playback

def playbackMachine : Machine Playback PlaybackStep where
  start := Playback.Fresh
  step c l c' := ∃ fuel, c.step fuel l = some c'

/-- A frame is a part of the stream, filled up with zeros when the queue ran empty. -/
def SentFrame.Carries (frame : SentFrame) (block_size : Nat) (part : List UInt8) : Prop :=
  part.length ≤ block_size ∧ frame.data = part ++ List.replicate (block_size - part.length) 0 ∧
    (part.length < block_size → frame.under_run = true)

/-- The frames carry the bytes written, in order and each once. -/
structure StreamContract (c : Playback) : Prop where
  stream : ∃ parts, List.Forall₂ (SentFrame.Carries · c.replay.buf_info.block_size) c.frames parts ∧
    parts.flatten ++ c.left = c.written
  pos : c.replay.buf_info.block_size ∣ c.replay.pos ∧ c.replay.pos < c.replay.buf_info.total_size
  copied : ∀ p ∈ c.replay.copied, p.1 + p.2 ≤ c.replay.buf_info.total_size
  returns : c.replay.Fits → ∃ n, ∀ fuel, n < fuel → ∃ c', c.audio_send_replay_frame fuel = some c'

end Ab32Vg1.Drivers
