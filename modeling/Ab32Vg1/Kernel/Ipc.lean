import Ab32Vg1.Kernel.Scheduler

/-! The lists of waiting threads of `ipc.c`. -/

namespace Ab32Vg1.Kernel

/-- `RT_IPC_FLAG_FIFO` and `RT_IPC_FLAG_PRIO`. -/
inductive IpcFlag where
  | fifo
  | prio
  deriving DecidableEq, Repr

/-- The place of a thread in a list ordered by priority: before the first thread of lower
priority. -/
def insertByPriority (priority : Tid → Nat) (t : Tid) : List Tid → List Tid
  | [] => [t]
  | u :: us =>
    if priority t < priority u then t :: u :: us else u :: insertByPriority priority t us

/-- How a critical section of an operation ends: the operation returns, or its thread is suspended
and calls `rt_schedule`. -/
inductive Outcome where
  | returned (err : Int)
  | suspended
  deriving DecidableEq, Repr

namespace Rtos

/-- The list insertion of `rt_ipc_list_suspend`. -/
def insertWaiting (s : Rtos) (l : Nat) (t : Tid) (flag : IpcFlag) : Rtos :=
  { s with
    suspend_thread := Function.update s.suspend_thread l <|
      match flag with
      | .fifo => s.suspend_thread l ++ [t]
      | .prio =>
        insertByPriority (fun u => (s.threads u).current_priority) t (s.suspend_thread l) }

def rt_ipc_list_suspend (s : Rtos) (l : Nat) (t : Tid) (flag : IpcFlag) : Option Rtos := do
  let (s, _) ← s.rt_thread_suspend t
  return s.insertWaiting l t flag

/-- An empty list has no thread entry. -/
def rt_ipc_list_resume (s : Rtos) (l : Nat) : Option Rtos :=
  match s.suspend_thread l with
  | [] => none
  | t :: _ => do
    let (s, _) ← s.rt_thread_resume t
    return s

/-- The loop of `rt_ipc_list_resume_all`, at most `n` times. -/
def resumeAll (l : Nat) : (n : Nat) → Rtos → Option Rtos
  | n, s =>
    match s.suspend_thread l, n with
    | [], _ => some s
    | _ :: _, 0 => none
    | t :: _, n + 1 => do
      let s := s.setThread t fun th => { th with error := -RT_ERROR }
      let (s, _) ← s.rt_thread_resume t
      resumeAll l n s

def rt_ipc_list_resume_all (s : Rtos) (l : Nat) : Option Rtos :=
  resumeAll l (s.suspend_thread l).length s

/-- A thread is suspended on a list, and a positive `timeout` starts its timer. -/
def suspendOn (s : Rtos) (l : Nat) (t : Tid) (flag : IpcFlag) (timeout : Int) : Option Rtos := do
  let s ← s.rt_ipc_list_suspend l t flag
  if 0 < timeout then s.rt_timer_start t timeout.toNat else some s

/-- A thread begins to wait on a list, with its error reset. -/
def waitOn (s : Rtos) (l : Nat) (t : Tid) (flag : IpcFlag) (timeout : Int) : Option Rtos :=
  (s.setThread t fun th => { th with error := RT_EOK }).suspendOn l t flag timeout

end Rtos

end Ab32Vg1.Kernel
