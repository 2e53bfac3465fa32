import Ab32Vg1.Kernel.Timer

/-! `workqueue.c`: items go to a worker thread at once or, through a soft timer each, later. A step is
a critical section of the code; between two of them any other may come. -/

namespace Ab32Vg1.Drivers

open ProofKit Kernel

abbrev WorkId := Nat

def RT_EBUSY : Int := 7

/-- The timer of an item: not a timer object, stopped, or in the timer list. -/
inductive WorkTimer
  | detached
  | stopped
  | activated
  deriving DecidableEq, Repr

/-- `struct rt_work`: the flags `RT_WORK_STATE_PENDING` and `RT_WORK_STATE_SUBMITTING`, the timer, and
whether `workqueue` is set. -/
structure Work where
  pending : Bool
  submitting : Bool
  timer : WorkTimer
  workqueue : Bool
  deriving DecidableEq, Repr

namespace Work

/-- `rt_work_init`. -/
def rt_work_init : Work where
  pending := false
  submitting := false
  timer := .detached
  workqueue := false

/-- The timer of a delayed submission: stopped if it runs, else initialised. -/
def setTimer (work : Work) : Option Work :=
  if work.submitting then do
    RT_ASSERT (work.timer ≠ .detached)
    return { work with timer := .stopped }
  else do
    RT_ASSERT (work.timer = .detached)
    return { work with timer := .stopped, submitting := true }

/-- What `_workqueue_cancel_work` does to an item. -/
def cancelled (work : Work) : Option Work :=
  if work.submitting then do
    RT_ASSERT (work.timer ≠ .detached)
    return ⟨false, false, .detached, false⟩
  else return { work with pending := false, workqueue := false }

end Work

/-- `struct rt_workqueue`, its items, and whether its thread is suspended. -/
structure Workqueue where
  work_list : List WorkId
  delayed_list : List WorkId
  work_current : Option WorkId
  suspended : Bool
  works : WorkId → Work

namespace Workqueue

/-- `rt_list_remove` of the list node of an item, which is in one list at most. -/
def rt_list_remove (queue : Workqueue) (work : WorkId) : Workqueue :=
  { queue with
    work_list := queue.work_list.erase work
    delayed_list := queue.delayed_list.erase work }

def setWork (queue : Workqueue) (work : WorkId) (w : Work) : Workqueue :=
  { queue with works := Function.update queue.works work w }

/-- The end of a submission: the thread is resumed if it is suspended and does no work. -/
def resumeWorker (queue : Workqueue) : Workqueue :=
  { queue with
    suspended := if queue.work_current = none then false else queue.suspended }

/-- The critical section of `_workqueue_submit_work`. -/
def _workqueue_submit_work (queue : Workqueue) (work : WorkId) (ticks : Nat) :
    Option (Workqueue × Int) :=
  let w := { queue.works work with pending := false }
  let queue := queue.rt_list_remove work
  if ticks = 0 then
    if queue.work_current ≠ some work then
      some ((({ queue with work_list := queue.work_list ++ [work] } : Workqueue).setWork work
        { w with pending := true, workqueue := true }).resumeWorker, RT_EOK)
    else some ((queue.setWork work w).resumeWorker, (- RT_EBUSY))
  else if ticks < RT_TICK_MAX / 2 then
    w.setTimer.map fun w =>
      (({ queue with delayed_list := queue.delayed_list ++ [work] } : Workqueue).setWork work
        { w with workqueue := true }, RT_EOK)
  else some (queue.setWork work w, (- RT_ERROR))

/-- `_workqueue_cancel_work`. -/
def _workqueue_cancel_work (queue : Workqueue) (work : WorkId) : Option (Workqueue × Int) :=
  (queue.works work).cancelled.map fun w =>
    ((queue.rt_list_remove work).setWork work w,
      if queue.work_current ≠ some work then RT_EOK else (- RT_EBUSY))

/-- The critical section of `_delayed_work_timeout_handler`. -/
def _delayed_work_timeout_handler (queue : Workqueue) (work : WorkId) : Option Workqueue := do
  RT_ASSERT ((queue.works work).timer ≠ .detached)
  let w := { queue.works work with timer := .detached, submitting := false }
  let queue := queue.rt_list_remove work
  if queue.work_current ≠ some work then
    return (({ queue with work_list := queue.work_list ++ [work] } : Workqueue).setWork work
      { w with pending := true }).resumeWorker
  else return (queue.setWork work w).resumeWorker

/-- `rt_workqueue_critical_work`. -/
def rt_workqueue_critical_work (queue : Workqueue) (work : WorkId) : Workqueue :=
  let queue := queue.rt_list_remove work
  ({ queue with work_list := work :: queue.work_list } : Workqueue).resumeWorker

/-- The critical section of `_workqueue_thread_entry`. -/
def _workqueue_thread_entry (queue : Workqueue) : Workqueue :=
  match queue.work_list with
  | [] => { queue with suspended := true }
  | work :: rest =>
    ({ queue with work_list := rest, work_current := some work } : Workqueue).setWork work
      { queue.works work with pending := false, workqueue := false }

end Workqueue

/-! ### The machine -/

/-- How far the timeout handler has come: called, or past the test of `work->workqueue`. -/
inductive HandlerPhase
  | called
  | entered
  deriving DecidableEq, Repr

/-- The queue, the callers about to start the timer of an item, and the handler that the timer thread
runs. The accepted submissions are numbered: `owed` is the one of an item that has not been executed,
cancelled or superseded, and `executed` is what the executions were owed to. -/
structure WqSystem where
  queue : Workqueue
  starting : List WorkId
  handler : Option (WorkId × HandlerPhase)
  submissions : Nat
  owed : WorkId → Option Nat
  executed : List (Option Nat)

inductive WqStep
  | submit (work : WorkId) (ticks : Nat)
  | critical (work : WorkId)
  | cancel (work : WorkId)
  | timerStart (work : WorkId)
  | expire (work : WorkId)
  | enter
  | timeout
  | work
  | done
  deriving DecidableEq, Repr

namespace WqSystem

/-- A submission of `work` that was accepted. -/
def accept (c : WqSystem) (work : WorkId) : WqSystem :=
  { c with
    submissions := c.submissions + 1
    owed := Function.update c.owed work (some c.submissions) }

def submit (c : WqSystem) (work : WorkId) (ticks : Nat) : Option WqSystem :=
  (c.queue._workqueue_submit_work work ticks).map fun (queue, err) =>
    if err = RT_EOK then
      ({ c with
        queue := queue
        starting := if ticks = 0 then c.starting else work :: c.starting } : WqSystem).accept work
    else { c with queue := queue }

def step (c : WqSystem) : WqStep → Option WqSystem
  | .submit work ticks => c.submit work ticks
  | .critical work =>
    some (({ c with queue := c.queue.rt_workqueue_critical_work work } : WqSystem).accept work)
  | .cancel work =>
    (c.queue._workqueue_cancel_work work).map fun (queue, _) =>
      { c with queue := queue, owed := Function.update c.owed work none }
  -- `rt_timer_start` at the end of `_workqueue_submit_work`
  | .timerStart work =>
    if work ∈ c.starting ∧ (c.queue.works work).timer ≠ .detached then
      some { c with
        starting := c.starting.erase work
        queue := c.queue.setWork work { c.queue.works work with timer := .activated } }
    else none
  -- `rt_soft_timer_check` takes the timer off its list and calls the handler
  | .expire work =>
    if c.handler = none ∧ (c.queue.works work).timer = .activated then
      some { c with
        handler := some (work, .called)
        queue := c.queue.setWork work { c.queue.works work with timer := .stopped } }
    else none
  | .enter =>
    match c.handler with
    | some (work, .called) => do
      RT_ASSERT ((c.queue.works work).workqueue = true)
      return { c with handler := some (work, .entered) }
    | _ => none
  | .timeout =>
    match c.handler with
    | some (work, .entered) =>
      (c.queue._delayed_work_timeout_handler work).map fun queue =>
        { c with queue := queue, handler := none }
    | _ => none
  | .work =>
    if c.queue.suspended = false ∧ c.queue.work_current = none then
      match c.queue.work_list with
      | [] => some { c with queue := c.queue._workqueue_thread_entry }
      | work :: _ =>
        some { c with
          queue := c.queue._workqueue_thread_entry
          owed := Function.update c.owed work none
          executed := c.owed work :: c.executed }
    else none
  | .done =>
    if c.queue.work_current ≠ none then
      some { c with queue := { c.queue with work_current := none } }
    else none

/-- The steps that the code is right for: a submission that is rejected finds its item not in the
work list, only an item in the work list is made critical, none is cancelled between the call of its
handler and the handler's test, its timer does not expire while it is executed, and it is not executed
while its timer runs. -/
def Sound (c : WqSystem) : WqStep → Prop
  | .submit work ticks => RT_TICK_MAX / 2 ≤ ticks → work ∉ c.queue.work_list
  | .critical work => work ∈ c.queue.work_list
  | .cancel work => c.handler ≠ some (work, .called)
  | .timeout => c.queue.work_current = none ∨ c.handler.map Prod.fst ≠ c.queue.work_current
  | .work => ∀ work ∈ c.queue.work_list.head?, (c.queue.works work).submitting = false
  | _ => True

instance (c : WqSystem) (l : WqStep) : Decidable (c.Sound l) :=
  match l with
  | .submit work ticks =>
    inferInstanceAs (Decidable (RT_TICK_MAX / 2 ≤ ticks → work ∉ c.queue.work_list))
  | .critical work => inferInstanceAs (Decidable (work ∈ c.queue.work_list))
  | .cancel work => inferInstanceAs (Decidable (c.handler ≠ some (work, .called)))
  | .timeout => inferInstanceAs (Decidable (c.queue.work_current = none ∨
      c.handler.map Prod.fst ≠ c.queue.work_current))
  | .work => inferInstanceAs (Decidable
      (∀ work ∈ c.queue.work_list.head?, (c.queue.works work).submitting = false))
  | .timerStart _ | .expire _ | .enter | .done => inferInstanceAs (Decidable True)

/-- An item will come to the worker: it is in the work list, or its timer will put it there. -/
def Scheduled (c : WqSystem) (work : WorkId) : Prop :=
  work ∈ c.queue.work_list ∨ (c.queue.works work).timer ≠ .detached ∧
    ((c.queue.works work).timer = .activated ∨ work ∈ c.starting ∨
      c.handler.map Prod.fst = some work)

/-- A queue that has just been created, its items initialised. -/
structure Fresh (c : WqSystem) : Prop where
  work_list : c.queue.work_list = []
  delayed_list : c.queue.delayed_list = []
  work_current : c.queue.work_current = none
  works : ∀ work, c.queue.works work = Work.rt_work_init
  starting : c.starting = []
  handler : c.handler = none
  owed : ∀ work, c.owed work = none
  executed : c.executed = []

end WqSystem

def wqMachine : Machine WqSystem WqStep where
  start := WqSystem.Fresh
  step c l c' := c.step l = some c'

/-- The lists and the flags agree, an accepted submission is executed at most once and is scheduled
until then, and a handler finds its queue. -/
structure WorkqueueContract (c : WqSystem) : Prop where
  one_list : c.queue.work_list.Nodup ∧ c.queue.delayed_list.Nodup ∧
    ∀ work, ¬ (work ∈ c.queue.work_list ∧ work ∈ c.queue.delayed_list)
  pending : ∀ work, (c.queue.works work).pending = true ↔ work ∈ c.queue.work_list
  executed_once : c.executed.Nodup ∧ ∀ e ∈ c.executed, ∃ n < c.submissions, e = some n
  not_dropped : ∀ work n, c.owed work = some n → c.Scheduled work
  awake : c.queue.work_list ≠ [] → c.queue.suspended = false
  handler : ∀ work, c.handler = some (work, .called) → (c.queue.works work).workqueue = true

end Ab32Vg1.Drivers
