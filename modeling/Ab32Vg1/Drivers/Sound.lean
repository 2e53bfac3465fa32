import Ab32Vg1.Kernel.Semaphore

/-! The audio output of `drv_sound.c`: the audio thread that fills the hardware buffer, the interrupt
that tells when it has drained, and the threads that open, write and close the device. -/

namespace Ab32Vg1.Drivers

open Kernel ProofKit Rtos

/-! ### `completion.c` -/

/-- `struct rt_completion`; `suspended_list` names its list. -/
structure RtCompletion where
  completed : Bool
  suspended_list : Nat
  deriving DecidableEq, Repr

namespace RtCompletion

def rt_completion_init (cmp : RtCompletion) (s : Rtos) : Rtos × RtCompletion :=
  ({ s with suspend_thread := Function.update s.suspend_thread cmp.suspended_list [] },
    { cmp with completed := false })

/-- `rt_completion_wait(completion, RT_WAITING_FOREVER)` up to its call of `rt_schedule`. -/
def rt_completion_wait (cmp : RtCompletion) (s : Rtos) : Option (Rtos × RtCompletion × Outcome) :=
  if cmp.completed = false then do
    let thread ← s.rt_current_thread
    RT_ASSERT (s.suspend_thread cmp.suspended_list = [])
    let s ← s.waitOn cmp.suspended_list thread .fifo (-1)
    return (s, cmp, .suspended)
  else some (s, { cmp with completed := false }, .returned RT_EOK)

/-- `rt_completion_done` up to its call of `rt_schedule`. -/
def rt_completion_done (cmp : RtCompletion) (s : Rtos) : Option (Rtos × RtCompletion) :=
  if cmp.completed = true then some (s, cmp)
  else if s.suspend_thread cmp.suspended_list ≠ [] then do
    let s ← s.rt_ipc_list_resume cmp.suspended_list
    return (s, { cmp with completed := true })
  else some (s, { cmp with completed := true })

end RtCompletion

/-! ### The audio buffer -/

def TX_FIFO_SIZE : Nat := 1024

/-- The words that `sound_transmit` writes for one frame. -/
def FRAME_WORDS : Nat := TX_FIFO_SIZE / 2 / 4

/-- The bits of `AUBUFCON`: pending clear, interrupt enable, pending, full. -/
def AUBUF_CLEAR : Nat := 1

def AUBUF_ENABLE : Nat := 4

def AUBUF_PEND : Nat := 5

def AUBUF_FULL : Nat := 8

/-- The bits that the hardware sets. -/
def AUBUF_STATUS : BitVec 32 := BIT AUBUF_PEND ||| BIT AUBUF_FULL

/-- What `AUBUFCON` holds after a write: the hardware keeps its bits, and takes a pending clear. -/
def writeAubufcon (AUBUFCON value : BitVec 32) : BitVec 32 :=
  (value &&& ~~~(AUBUF_STATUS ||| BIT AUBUF_CLEAR)) |||
    (AUBUFCON &&& if value.getLsbD AUBUF_CLEAR then BIT AUBUF_FULL else AUBUF_STATUS)

/-- Where the audio thread is, in `audio_thread_entry`, in `_audio_send_replay_frame`, and with `n`
words left in `sound_transmit`.  A read of `AUBUFCON` and the write of the result are two steps. -/
inductive AudioPc where
  | top
  | frame
  | copy
  | transmit (n : Nat)
  | enableLoad (n : Nat)
  | enableStore (n : Nat) (value : BitVec 32)
  | pend (n : Nat)
  | waiting (n : Nat)
  | word (n : Nat)
  deriving DecidableEq, Repr

/-- Where an application thread is, in `_audio_dev_write` or `_aduio_replay_stop`. -/
inductive AppPc where
  | idle
  | writing
  | startCheck
  | startLoad
  | startStore (value : BitVec 32)
  | started
  | flush
  | setStop
  | initCmp
  | waitCmp
  | waitingCmp
  | clearStop
  | stopLoad
  | stopStore (value : BitVec 32)
  | stopped
  deriving DecidableEq, Repr

/-- The sound device: `queued` is the number of the items in its data queue. -/
structure Sound where
  os : Rtos
  audio : Tid
  semaphore : Semaphore
  cmp : RtCompletion
  activated : Bool
  stopEvent : Bool
  queued : Nat
  AUBUFCON : BitVec 32
  pc : AudioPc
  app : Tid → AppPc

/-- `copy` tells how many items of the queue the frame uses up; `hardware` sets the pending and the
full bit. -/
inductive SoundStep where
  | audio
  | copy (items : Nat)
  | write (t : Tid)
  | push (t : Tid)
  | stop (t : Tid)
  | app (t : Tid)
  | isr
  | hardware (pend full : Bool)
  | schedule
  | other (os : Rtos)

namespace Sound

def setApp (c : Sound) (t : Tid) (pc : AppPc) : Sound :=
  { c with app := Function.update c.app t pc }

/-- The next step of the audio thread. -/
def runAudio (c : Sound) : Option Sound :=
  if Runs c.os c.audio then
    match c.pc with
    | .top => some (if c.activated then { c with pc := .frame } else c)
    | .frame =>
      if c.queued = 0 then
        if c.stopEvent then
          (c.cmp.rt_completion_done c.os).map fun (os, cmp) =>
            { c with os := os, cmp := cmp, pc := .transmit FRAME_WORDS }
        else some { c with pc := .transmit FRAME_WORDS }
      else some { c with pc := .copy }
    | .copy => none
    | .transmit 0 => some { c with pc := .top }
    | .transmit (n + 1) =>
      some { c with pc := if c.AUBUFCON.getLsbD AUBUF_FULL then .enableLoad n else .word n }
    | .enableLoad n => some { c with pc := .enableStore n c.AUBUFCON }
    | .enableStore n value =>
      some { c with
        AUBUFCON := writeAubufcon c.AUBUFCON (value ||| (BIT AUBUF_CLEAR ||| BIT AUBUF_ENABLE))
        pc := .pend n }
    | .pend n =>
      (c.semaphore.rt_sem_take c.os (-1)).map fun
        | (os, semaphore, .returned _) => { c with os := os, semaphore := semaphore, pc := .word n }
        | (os, semaphore, .suspended) => { c with os := os, semaphore := semaphore, pc := .waiting n }
    | .waiting n => some { c with pc := .word n }
    | .word n => some { c with pc := .transmit n }
  else none

def copy (c : Sound) (items : Nat) : Option Sound :=
  if Runs c.os c.audio ∧ c.pc = .copy ∧ items ≤ c.queued then
    some { c with queued := c.queued - items, pc := .transmit FRAME_WORDS }
  else none

/-- The next step of an application thread. -/
def runApp (c : Sound) (t : Tid) : Option Sound :=
  if Runs c.os t ∧ t ≠ c.audio then
    match c.app t with
    | .idle => none
    | .writing => some (c.setApp t (if c.activated then .idle else .startCheck))
    | .startCheck => some (c.setApp t (if c.activated then .started else .startLoad))
    | .startLoad => some (c.setApp t (.startStore c.AUBUFCON))
    | .startStore value =>
      some ({ c with AUBUFCON := writeAubufcon c.AUBUFCON (value ||| BIT AUBUF_CLEAR) }.setApp t .started)
    | .started => some ({ c with activated := true }.setApp t .idle)
    | .flush => some (c.setApp t .setStop)
    | .setStop => some ({ c with stopEvent := true }.setApp t .initCmp)
    | .initCmp =>
      let (os, cmp) := c.cmp.rt_completion_init c.os
      some ({ c with os := os, cmp := cmp }.setApp t .waitCmp)
    | .waitCmp =>
      (c.cmp.rt_completion_wait c.os).map fun
        | (os, cmp, .returned _) => { c with os := os, cmp := cmp }.setApp t .clearStop
        | (os, cmp, .suspended) => { c with os := os, cmp := cmp }.setApp t .waitingCmp
    | .waitingCmp => some ({ c with cmp := { c.cmp with completed := false } }.setApp t .clearStop)
    | .clearStop => some ({ c with stopEvent := false }.setApp t .stopLoad)
    | .stopLoad => some (c.setApp t (.stopStore c.AUBUFCON))
    | .stopStore value =>
      some ({ c with
        AUBUFCON := writeAubufcon c.AUBUFCON (value &&& ~~~BIT AUBUF_ENABLE) }.setApp t .stopped)
    | .stopped => some ({ c with activated := false }.setApp t .idle)
  else none

/-- `audio_isr`, which is served while its interrupt is enabled and pending. -/
def isr (c : Sound) : Option Sound :=
  if c.AUBUFCON.getLsbD AUBUF_ENABLE ∧ c.AUBUFCON.getLsbD AUBUF_PEND then
    (c.semaphore.rt_sem_release c.os).map fun (os, semaphore, _) =>
      let AUBUFCON := writeAubufcon c.AUBUFCON (c.AUBUFCON ||| BIT AUBUF_CLEAR)
      { c with
        os := os, semaphore := semaphore
        AUBUFCON := writeAubufcon AUBUFCON (AUBUFCON &&& ~~~BIT AUBUF_ENABLE) }
  else none

def step (c : Sound) : SoundStep → Option Sound
  | .audio => c.runAudio
  | .copy items => c.copy items
  | .write t => if Runs c.os t ∧ t ≠ c.audio ∧ c.app t = .idle then some (c.setApp t .writing) else none
  | .push t =>
    if Runs c.os t ∧ (c.app t = .writing ∨ c.app t = .flush) then
      some { c with queued := c.queued + 1 }
    else none
  | .stop t =>
    if Runs c.os t ∧ t ≠ c.audio ∧ c.app t = .idle ∧ c.activated then some (c.setApp t .flush) else none
  | .app t => c.runApp t
  | .isr => c.isr
  | .hardware pend full =>
    some { c with
      AUBUFCON := (c.AUBUFCON &&& ~~~AUBUF_STATUS) |||
        (if pend then BIT AUBUF_PEND else 0) ||| (if full then BIT AUBUF_FULL else 0) }
  | .schedule => c.os.rt_schedule.map fun os => { c with os := os }
  | .other _ => none

/-- The lists of the device. -/
def lists (c : Sound) (l : Nat) : Prop :=
  l = c.semaphore.suspend_thread ∨ l = c.cmp.suspended_list

/-- The threads that are inside the device. -/
def busy (c : Sound) (t : Tid) : Prop := t = c.audio ∨ c.app t ≠ .idle

/-- As `rt_hw_sound_init` leaves it. -/
structure Fresh (c : Sound) : Prop where
  inv : Inv c.os
  lists : c.semaphore.suspend_thread ≠ c.cmp.suspended_list
  waiting : c.os.suspend_thread c.semaphore.suspend_thread = [] ∧
    c.os.suspend_thread c.cmp.suspended_list = []
  value : c.semaphore.value = 0
  inactive : c.activated = false ∧ c.stopEvent = false
  pc : c.pc = .top
  app : ∀ t, c.app t = .idle

/-- The audio thread is suspended in `audio_sem_pend`. -/
def Suspended (c : Sound) : Prop := c.audio ∈ c.os.suspend_thread c.semaphore.suspend_thread

instance (c : Sound) : Decidable c.Suspended := inferInstanceAs (Decidable (_ ∈ _))

/-- The value that an application thread is about to write to `AUBUFCON`. -/
def stores (c : Sound) (t : Tid) : Option (BitVec 32) :=
  match c.app t with
  | .startStore value => some (value ||| BIT AUBUF_CLEAR)
  | .stopStore value => some (value &&& ~~~BIT AUBUF_ENABLE)
  | _ => none

/-- The audio thread has yet to be released by the interrupt. -/
def Awaits (c : Sound) : Prop := c.Suspended ∨ (∃ n, c.pc = .pend n) ∧ c.semaphore.value = 0

instance (c : Sound) : Decidable c.Awaits :=
  decidable_of_iff (c.Suspended ∨ (c.pc matches .pend _) ∧ c.semaphore.value = 0) <| by
    cases h : c.pc <;> simp [Awaits, h]

/-- No application thread writes `AUBUFCON` without the enable bit while the audio thread needs it. -/
def LeavesEnabled (c : Sound) : SoundStep → Prop
  | .app t => ∀ value, c.stores t = some value → c.Awaits → value.getLsbD AUBUF_ENABLE = true
  | _ => True

instance (c : Sound) : (l : SoundStep) → Decidable (c.LeavesEnabled l)
  | .app t =>
    match h : c.stores t with
    | none => isTrue fun value hvalue => by simp [h] at hvalue
    | some value =>
      decidable_of_iff (c.Awaits → value.getLsbD AUBUF_ENABLE = true) <| by
        simp only [LeavesEnabled, h, Option.some.injEq, forall_eq']
  | .audio | .copy _ | .write _ | .push _ | .stop _ | .isr | .hardware _ _ | .schedule | .other _ =>
    isTrue trivial

end Sound

def soundMachine : Machine Sound SoundStep where
  start := Sound.Fresh
  step c l c' := c.step l = some c' ∨ ∃ os, l = .other os ∧ c' = { c with os := os } ∧
    Elsewhere c.lists c.busy c.os os

/-- The interrupt that releases the suspended audio thread is enabled. -/
def SoundContract (c : Sound) : Prop :=
  c.Suspended → c.semaphore.value = 0 → c.AUBUFCON.getLsbD AUBUF_ENABLE = true

end Ab32Vg1.Drivers
