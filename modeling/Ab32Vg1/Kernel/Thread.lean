import Ab32Vg1.Kernel.Def
import Mathlib.Logic.Function.Basic

/-! The state of the kernel that threads share: the control blocks, the lists that threads are in
and the variables of the scheduler and of the context switch.  A thread is in a list through its
one `tlist` node; a list is modelled by its members in order. -/

namespace Ab32Vg1.Kernel

/-- A thread, named by the address of its control block. -/
abbrev Tid := Nat

/-- `RT_THREAD_STAT_MASK` part of `thread->stat`. -/
inductive Stat where
  | INIT
  | READY
  | SUSPEND
  | RUNNING
  | CLOSE
  deriving DecidableEq, Repr

def RT_THREAD_PRIORITY_MAX : Nat := 32

/-- The timer of a thread: whether it is in the timer list, and its period. -/
structure ThreadTimer where
  activated : Bool
  init_tick : Nat
  deriving DecidableEq, Repr

/-- `struct rt_thread`. -/
structure Thread where
  /-- `rt_object_get_type(thread) == RT_Object_Class_Thread` -/
  is_thread : Bool
  /-- `rt_object_is_systemobject(thread)` -/
  systemobject : Bool
  stat : Stat
  /-- `RT_THREAD_STAT_YIELD` -/
  stat_yield : Bool
  error : Int
  current_priority : Nat
  init_priority : Nat
  number_mask : BitVec 32
  init_tick : Nat
  remaining_tick : Nat
  thread_timer : ThreadTimer
  event_set : BitVec 32
  event_info : BitVec 8
  deriving DecidableEq, Repr

/-- The variables of `cpuport.c` and `context_gcc.S` that a request for a switch writes, with the
pending bit of the software interrupt.  `none` is the address 0. -/
structure Port where
  rt_interrupt_nest : Nat
  rt_interrupt_from_thread : Option Tid
  rt_interrupt_to_thread : Option Tid
  rt_thread_switch_interrupt_flag : Bool
  soft_pending : Bool
  deriving DecidableEq, Repr

structure Rtos where
  threads : Tid → Thread
  rt_thread_priority_table : Nat → List Tid
  rt_thread_ready_priority_group : BitVec 32
  rt_thread_defunct : List Tid
  /-- The lists of waiting threads: one, or two, for each IPC object. -/
  suspend_thread : Nat → List Tid
  rt_current_thread : Option Tid
  rt_current_priority : Nat
  rt_scheduler_lock_nest : BitVec 16
  port : Port

namespace Rtos

/-- A change of one control block. -/
def setThread (s : Rtos) (t : Tid) (f : Thread → Thread) : Rtos :=
  { s with threads := Function.update s.threads t (f (s.threads t)) }

/-- `rt_list_remove(&thread->tlist)` -/
def rt_list_remove (s : Rtos) (t : Tid) : Rtos :=
  { s with
    rt_thread_priority_table := fun p => (s.rt_thread_priority_table p).filter (· ≠ t)
    rt_thread_defunct := s.rt_thread_defunct.filter (· ≠ t)
    suspend_thread := fun l => (s.suspend_thread l).filter (· ≠ t) }

/-- `rt_timer_stop(&thread->thread_timer)` and `rt_timer_detach`: both take the timer off the timer
list. -/
def rt_timer_stop (s : Rtos) (t : Tid) : Rtos :=
  s.setThread t fun th => { th with thread_timer := { th.thread_timer with activated := false } }

/-- `rt_timer_control(&thread->thread_timer, RT_TIMER_CTRL_SET_TIME, &tick)` and
`rt_timer_start(&thread->thread_timer)`. -/
def rt_timer_start (s : Rtos) (t : Tid) (tick : Nat) : Option Rtos := do
  RT_ASSERT (tick < RT_TICK_MAX / 2)
  return s.setThread t fun th => { th with thread_timer := ⟨true, tick⟩ }

section

variable (s : Rtos) (t u : Tid) (f : Thread → Thread)

@[simp] theorem setThread_self : (s.setThread t f).threads t = f (s.threads t) :=
  Function.update_self ..

theorem setThread_of_ne {u : Tid} (h : u ≠ t) : (s.setThread t f).threads u = s.threads u :=
  Function.update_of_ne h ..

theorem setThread_threads :
    (s.setThread t f).threads u = if u = t then f (s.threads t) else s.threads u := by
  by_cases h : u = t
  · rw [h, setThread_self, if_pos rfl]
  · rw [setThread_of_ne s t f h, if_neg h]

@[simp] theorem setThread_table :
    (s.setThread t f).rt_thread_priority_table = s.rt_thread_priority_table := rfl

@[simp] theorem setThread_group :
    (s.setThread t f).rt_thread_ready_priority_group = s.rt_thread_ready_priority_group := rfl

@[simp] theorem setThread_defunct :
    (s.setThread t f).rt_thread_defunct = s.rt_thread_defunct := rfl

@[simp] theorem setThread_suspend : (s.setThread t f).suspend_thread = s.suspend_thread := rfl

@[simp] theorem setThread_current :
    (s.setThread t f).rt_current_thread = s.rt_current_thread := rfl

@[simp] theorem setThread_lock :
    (s.setThread t f).rt_scheduler_lock_nest = s.rt_scheduler_lock_nest := rfl

@[simp] theorem list_remove_threads : (s.rt_list_remove t).threads = s.threads := rfl

@[simp] theorem list_remove_current :
    (s.rt_list_remove t).rt_current_thread = s.rt_current_thread := rfl

@[simp] theorem list_remove_suspend (l : Nat) :
    (s.rt_list_remove t).suspend_thread l = (s.suspend_thread l).filter (· ≠ t) := rfl

@[simp] theorem setThread_port : (s.setThread t f).port = s.port := rfl

end

end Rtos

end Ab32Vg1.Kernel
