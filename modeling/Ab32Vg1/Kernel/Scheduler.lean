import Ab32Vg1.Kernel.Thread

/-! The scheduler of `scheduler.c`, the thread operations of `thread.c` and the requests for a
context switch of `context_gcc.S`, for one processor and at most 32 priorities.  `none` means that
an assertion stopped the system or that a null or dangling pointer was followed. -/

namespace Ab32Vg1.Kernel

/-- `__lowest_bit_bitmap` -/
def lowest_bit_bitmap : List Nat :=
  [0, 0, 1, 0, 2, 0, 1, 0, 3, 0, 1, 0, 2, 0, 1, 0,
   4, 0, 1, 0, 2, 0, 1, 0, 3, 0, 1, 0, 2, 0, 1, 0,
   5, 0, 1, 0, 2, 0, 1, 0, 3, 0, 1, 0, 2, 0, 1, 0,
   4, 0, 1, 0, 2, 0, 1, 0, 3, 0, 1, 0, 2, 0, 1, 0,
   6, 0, 1, 0, 2, 0, 1, 0, 3, 0, 1, 0, 2, 0, 1, 0,
   4, 0, 1, 0, 2, 0, 1, 0, 3, 0, 1, 0, 2, 0, 1, 0,
   5, 0, 1, 0, 2, 0, 1, 0, 3, 0, 1, 0, 2, 0, 1, 0,
   4, 0, 1, 0, 2, 0, 1, 0, 3, 0, 1, 0, 2, 0, 1, 0,
   7, 0, 1, 0, 2, 0, 1, 0, 3, 0, 1, 0, 2, 0, 1, 0,
   4, 0, 1, 0, 2, 0, 1, 0, 3, 0, 1, 0, 2, 0, 1, 0,
   5, 0, 1, 0, 2, 0, 1, 0, 3, 0, 1, 0, 2, 0, 1, 0,
   4, 0, 1, 0, 2, 0, 1, 0, 3, 0, 1, 0, 2, 0, 1, 0,
   6, 0, 1, 0, 2, 0, 1, 0, 3, 0, 1, 0, 2, 0, 1, 0,
   4, 0, 1, 0, 2, 0, 1, 0, 3, 0, 1, 0, 2, 0, 1, 0,
   5, 0, 1, 0, 2, 0, 1, 0, 3, 0, 1, 0, 2, 0, 1, 0,
   4, 0, 1, 0, 2, 0, 1, 0, 3, 0, 1, 0, 2, 0, 1, 0]

/-- `__rt_ffs`: the number of the lowest bit set, counted from 1. -/
def rt_ffs (value : BitVec 32) : Nat :=
  if value = 0 then 0
  else if value &&& 0xff#32 ≠ 0 then lowest_bit_bitmap.getD (value &&& 0xff#32).toNat 0 + 1
  else if value &&& 0xff00#32 ≠ 0 then
    lowest_bit_bitmap.getD ((value &&& 0xff00#32) >>> 8).toNat 0 + 9
  else if value &&& 0xff0000#32 ≠ 0 then
    lowest_bit_bitmap.getD ((value &&& 0xff0000#32) >>> 16).toNat 0 + 17
  else lowest_bit_bitmap.getD ((value &&& 0xff000000#32) >>> 24).toNat 0 + 25

namespace Port

def rt_hw_context_switch (p : Port) (from_thread to_thread : Tid) : Port :=
  { p with
    rt_interrupt_from_thread := some from_thread
    rt_interrupt_to_thread := some to_thread
    rt_thread_switch_interrupt_flag := true
    soft_pending := true }

def rt_hw_context_switch_interrupt (p : Port) (from_thread to_thread : Tid) : Port :=
  { p with
    rt_interrupt_from_thread :=
      if p.rt_thread_switch_interrupt_flag then p.rt_interrupt_from_thread else some from_thread
    rt_interrupt_to_thread := some to_thread
    rt_thread_switch_interrupt_flag := true }

def rt_hw_context_switch_to (p : Port) (to_thread : Tid) : Port :=
  { p with
    rt_interrupt_from_thread := none
    rt_interrupt_to_thread := some to_thread
    rt_interrupt_nest := 0
    rt_thread_switch_interrupt_flag := true
    soft_pending := true }

end Port

namespace Rtos

/-! ### `scheduler.c` -/

/-- `_get_highest_priority_thread`: the thread and its priority. -/
def get_highest_priority_thread (s : Rtos) : Option (Tid × Nat) :=
  let highest_ready_priority := rt_ffs s.rt_thread_ready_priority_group - 1
  match s.rt_thread_priority_table highest_ready_priority with
  | [] => none
  | t :: _ => some (t, highest_ready_priority)

def rt_schedule_insert_thread (s : Rtos) (t : Tid) : Rtos :=
  if s.rt_current_thread = some t then
    s.setThread t fun th => { th with stat := .RUNNING }
  else
    let s := s.setThread t fun th => { th with stat := .READY }
    let th := s.threads t
    { s with
      rt_thread_priority_table := Function.update s.rt_thread_priority_table th.current_priority
        (s.rt_thread_priority_table th.current_priority ++ [t])
      rt_thread_ready_priority_group := s.rt_thread_ready_priority_group ||| th.number_mask }

def rt_schedule_remove_thread (s : Rtos) (t : Tid) : Rtos :=
  let s := s.rt_list_remove t
  let th := s.threads t
  { s with
    rt_thread_ready_priority_group :=
      if s.rt_thread_priority_table th.current_priority = [] then
        s.rt_thread_ready_priority_group &&& ~~~th.number_mask
      else s.rt_thread_ready_priority_group }

/-- The request for a switch at the end of `rt_schedule`. -/
def contextSwitch (s : Rtos) (from_thread to_thread : Tid) : Rtos :=
  { s with
    port :=
      if s.port.rt_interrupt_nest = 0 then s.port.rt_hw_context_switch from_thread to_thread
      else s.port.rt_hw_context_switch_interrupt from_thread to_thread }

/-- `rt_schedule` keeps a running thread of higher priority than the ready ones, or of the same
priority when it has not yielded. -/
def keepsRunning (th : Thread) (highest_ready_priority : Nat) : Prop :=
  th.current_priority < highest_ready_priority ∨
    th.current_priority = highest_ready_priority ∧ th.stat_yield = false

instance (th : Thread) (p : Nat) : Decidable (keepsRunning th p) :=
  inferInstanceAs (Decidable (_ ∨ _))

/-- The part of `rt_schedule` that replaces the current thread. -/
def switchTo (s : Rtos) (from_thread to_thread : Tid) (priority : Nat)
    (need_insert_from_thread : Bool) : Rtos :=
  let s := { s with rt_current_priority := priority % 256, rt_current_thread := some to_thread }
  let s := if need_insert_from_thread then s.rt_schedule_insert_thread from_thread else s
  let s := s.rt_schedule_remove_thread to_thread
  let s := s.setThread to_thread fun th => { th with stat := .RUNNING }
  s.contextSwitch from_thread to_thread

/-- The last part of `rt_schedule`: another thread becomes the current one, or it stays. -/
def finishSchedule (s : Rtos) (from_thread to_thread : Tid) (priority : Nat)
    (need_insert_from_thread : Bool) : Rtos :=
  if to_thread ≠ from_thread then
    s.switchTo from_thread to_thread priority need_insert_from_thread
  else
    (s.rt_schedule_remove_thread from_thread).setThread from_thread fun th =>
      { th with stat := .RUNNING }

def rt_schedule (s : Rtos) : Option Rtos :=
  if s.rt_scheduler_lock_nest = 0 then
    if s.rt_thread_ready_priority_group ≠ 0 then do
      let (to_thread, highest_ready_priority) ← s.get_highest_priority_thread
      let current ← s.rt_current_thread
      let th := s.threads current
      if th.stat = .RUNNING then
        let s := s.setThread current fun th => { th with stat_yield := false }
        if keepsRunning th highest_ready_priority then
          return s.finishSchedule current current highest_ready_priority false
        else return s.finishSchedule current to_thread highest_ready_priority true
      else return s.finishSchedule current to_thread highest_ready_priority false
    else some s
  else some s

def rt_system_scheduler_start (s : Rtos) : Option Rtos := do
  let (to_thread, _) ← s.get_highest_priority_thread
  let s := { s with rt_current_thread := some to_thread }
  let s := s.rt_schedule_remove_thread to_thread
  let s := s.setThread to_thread fun th => { th with stat := .RUNNING, stat_yield := false }
  return { s with port := s.port.rt_hw_context_switch_to to_thread }

def rt_enter_critical (s : Rtos) : Rtos :=
  { s with rt_scheduler_lock_nest := s.rt_scheduler_lock_nest + 1 }

def rt_exit_critical (s : Rtos) : Option Rtos :=
  let nest := s.rt_scheduler_lock_nest - 1
  if nest.toInt ≤ 0 then
    let s := { s with rt_scheduler_lock_nest := 0 }
    if s.rt_current_thread.isSome then s.rt_schedule else some s
  else some { s with rt_scheduler_lock_nest := nest }

/-! ### `thread.c` -/

/-- `rt_thread_init`, or `rt_thread_create`, on an object that is not yet a thread. -/
def rt_thread_init (s : Rtos) (t : Tid) (systemobject : Bool) (priority tick : Nat) :
    Option Rtos := do
  RT_ASSERT ((s.threads t).is_thread = false)
  RT_ASSERT (priority < RT_THREAD_PRIORITY_MAX)
  return s.setThread t fun th =>
    { th with
      is_thread := true
      systemobject := systemobject
      init_priority := priority
      current_priority := priority
      number_mask := 0
      init_tick := tick
      remaining_tick := tick
      error := RT_EOK
      stat := .INIT
      stat_yield := false
      thread_timer := ⟨false, 0⟩ }

def rt_thread_resume (s : Rtos) (t : Tid) : Option (Rtos × Int) := do
  RT_ASSERT (s.threads t).is_thread
  if (s.threads t).stat ≠ .SUSPEND then return (s, -RT_ERROR)
  else return (((s.rt_list_remove t).rt_timer_stop t).rt_schedule_insert_thread t, RT_EOK)

def rt_thread_suspend (s : Rtos) (t : Tid) : Option (Rtos × Int) := do
  RT_ASSERT (s.threads t).is_thread
  let stat := (s.threads t).stat
  if stat ≠ .READY ∧ stat ≠ .RUNNING then return (s, -RT_ERROR)
  else
    RT_ASSERT (stat = .RUNNING → s.rt_current_thread = some t)
    let s := s.rt_schedule_remove_thread t
    let s := s.setThread t fun th => { th with stat := .SUSPEND }
    return (s.rt_timer_stop t, RT_EOK)

/-- `rt_thread_startup` up to its call of `rt_schedule`. -/
def startup (s : Rtos) (t : Tid) : Option Rtos := do
  RT_ASSERT ((s.threads t).stat = .INIT)
  RT_ASSERT (s.threads t).is_thread
  let s := s.setThread t fun th =>
    { th with
      current_priority := th.init_priority
      number_mask := 1#32 <<< th.init_priority
      stat := .SUSPEND
      stat_yield := false }
  let (s, _) ← s.rt_thread_resume t
  return s

def rt_thread_startup (s : Rtos) (t : Tid) : Option Rtos := do
  let s ← s.startup t
  if s.rt_current_thread.isSome then s.rt_schedule else some s

/-- `rt_thread_control(thread, RT_THREAD_CTRL_CHANGE_PRIORITY, &priority)` -/
def rt_thread_control_priority (s : Rtos) (t : Tid) (priority : Nat) : Option Rtos := do
  RT_ASSERT (s.threads t).is_thread
  let change := fun (th : Thread) =>
    { th with current_priority := priority, number_mask := 1#32 <<< priority }
  if (s.threads t).stat = .READY then
    return ((s.rt_schedule_remove_thread t).setThread t change).rt_schedule_insert_thread t
  else return s.setThread t change

/-- `rt_thread_detach` without the cleanup function of the thread. -/
def rt_thread_detach (s : Rtos) (t : Tid) : Option Rtos := do
  RT_ASSERT (s.threads t).is_thread
  RT_ASSERT (s.threads t).systemobject
  if (s.threads t).stat = .CLOSE then return s
  else
    let s := if (s.threads t).stat ≠ .INIT then s.rt_schedule_remove_thread t else s
    let s := s.rt_timer_stop t
    return s.setThread t fun th =>
      { th with stat := .CLOSE, stat_yield := false, is_thread := false }

/-- `rt_thread_delete` without the cleanup function of the thread. -/
def rt_thread_delete (s : Rtos) (t : Tid) : Option Rtos := do
  RT_ASSERT (s.threads t).is_thread
  RT_ASSERT ((s.threads t).systemobject = false)
  if (s.threads t).stat = .CLOSE then return s
  else
    let s := if (s.threads t).stat ≠ .INIT then s.rt_schedule_remove_thread t else s
    let s := s.rt_timer_stop t
    let s := s.setThread t fun th => { th with stat := .CLOSE, stat_yield := false }
    return { s with rt_thread_defunct := t :: s.rt_thread_defunct }

/-- `rt_thread_control(thread, RT_THREAD_CTRL_CLOSE, arg)` up to its call of `rt_schedule`. -/
def rt_thread_control_close (s : Rtos) (t : Tid) : Option Rtos :=
  if (s.threads t).systemobject then s.rt_thread_detach t else s.rt_thread_delete t

/-- `rt_thread_yield` up to its call of `rt_schedule`. -/
def setYield (s : Rtos) : Option Rtos := do
  let t ← s.rt_current_thread
  return s.setThread t fun th => { th with remaining_tick := th.init_tick, stat_yield := true }

def rt_thread_yield (s : Rtos) : Option Rtos := do
  let s ← s.setYield
  s.rt_schedule

/-- `rt_thread_sleep` up to its call of `rt_schedule`. -/
def startSleep (s : Rtos) (tick : Nat) : Option Rtos := do
  let t ← s.rt_current_thread
  let (s, _) ← s.rt_thread_suspend t
  s.rt_timer_start t tick

/-- `rt_thread_timeout` up to its call of `rt_schedule`. -/
def expire (s : Rtos) (t : Tid) : Option Rtos := do
  RT_ASSERT ((s.threads t).stat = .SUSPEND)
  RT_ASSERT (s.threads t).is_thread
  let s := s.setThread t fun th => { th with error := -RT_ETIMEOUT }
  return (s.rt_list_remove t).rt_schedule_insert_thread t

def rt_thread_timeout (s : Rtos) (t : Tid) : Option Rtos := do
  let s ← s.expire t
  s.rt_schedule

/-- `rt_timer_check` takes a due timer of a thread off the list and calls `rt_thread_timeout`. -/
def timerExpires (s : Rtos) (t : Tid) : Option Rtos :=
  (s.rt_timer_stop t).rt_thread_timeout t

/-- `rt_interrupt_enter` -/
def rt_interrupt_enter (s : Rtos) : Rtos :=
  { s with port := { s.port with rt_interrupt_nest := (s.port.rt_interrupt_nest + 1) % 256 } }

/-- `rt_interrupt_leave` -/
def rt_interrupt_leave (s : Rtos) : Rtos :=
  { s with port := { s.port with rt_interrupt_nest := (s.port.rt_interrupt_nest + 255) % 256 } }

/-! ### What the queue operations leave alone -/

section

variable (s : Rtos) (t : Tid)

theorem insert_threads_of_ne {u : Tid} (h : u ≠ t) :
    (s.rt_schedule_insert_thread t).threads u = s.threads u := by
  unfold rt_schedule_insert_thread
  split
  · exact setThread_of_ne s t _ h
  · simp [setThread_of_ne s t _ h]

theorem insert_threads_self : (s.rt_schedule_insert_thread t).threads t =
    { s.threads t with stat := if s.rt_current_thread = some t then .RUNNING else .READY } := by
  unfold rt_schedule_insert_thread
  split <;> simp

@[simp] theorem insert_current :
    (s.rt_schedule_insert_thread t).rt_current_thread = s.rt_current_thread := by
  unfold rt_schedule_insert_thread
  split <;> rfl

@[simp] theorem insert_suspend :
    (s.rt_schedule_insert_thread t).suspend_thread = s.suspend_thread := by
  unfold rt_schedule_insert_thread
  split <;> rfl

@[simp] theorem insert_port : (s.rt_schedule_insert_thread t).port = s.port := by
  unfold rt_schedule_insert_thread
  split <;> rfl

@[simp] theorem insert_lock :
    (s.rt_schedule_insert_thread t).rt_scheduler_lock_nest = s.rt_scheduler_lock_nest := by
  unfold rt_schedule_insert_thread
  split <;> rfl

@[simp] theorem remove_threads : (s.rt_schedule_remove_thread t).threads = s.threads := rfl

@[simp] theorem remove_current :
    (s.rt_schedule_remove_thread t).rt_current_thread = s.rt_current_thread := rfl

@[simp] theorem remove_port : (s.rt_schedule_remove_thread t).port = s.port := rfl

@[simp] theorem remove_suspend (l : Nat) :
    (s.rt_schedule_remove_thread t).suspend_thread l = (s.suspend_thread l).filter (· ≠ t) := rfl

end

end Rtos

end Ab32Vg1.Kernel
