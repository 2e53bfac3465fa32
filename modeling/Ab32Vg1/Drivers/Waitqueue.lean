import Ab32Vg1.Drivers.Pipe
import Ab32Vg1.Kernel.ResumeRace

/-! The wait queues of `waitqueue.c` with the threads that wait on them, their timers, and any order of
waits and wakeups. -/

namespace Ab32Vg1.Drivers

open Kernel ProofKit Rtos

/-- `RT_TICK_PER_SECOND` is 1000, and -1 is `RT_WAITING_FOREVER`. -/
def rt_tick_from_millisecond (ms : Int) : Int :=
  if ms < 0 then -1 else 1000 * (ms / 1000) + (1000 * (ms % 1000) + 999) / 1000

namespace Waitqueue

/-- The timer of a thread that does not wait forever. -/
def startTimer (s : Rtos) (tid : Tid) (tick : Int) : Option Rtos :=
  if tick ≠ -1 then s.rt_timer_start tid tick.toNat else some s

/-- `rt_wqueue_wait` up to its call of `rt_schedule`. -/
def rt_wqueue_wait (queue : WaitQueue) (s : Rtos) (condition : Bool) (msec : Int) :
    Option (Rtos × WaitQueue × Outcome) :=
  let tick := rt_tick_from_millisecond msec
  if condition = true ∨ tick = 0 then some (s, queue, .returned 0)
  else if queue.flag = true then some (s, { queue with flag := false }, .returned 0)
  else do
    let tid ← s.rt_current_thread
    let (s, _) ← s.rt_thread_suspend tid
    let s ← startTimer s tid tick
    return (s, { queue with waiting_list := queue.waiting_list ++ [tid] }, .suspended)

/-- The second critical section of `rt_wqueue_wait`. -/
def clean (queue : WaitQueue) : WaitQueue := { queue with flag := false }

/-- `rt_wqueue_remove` -/
def rt_wqueue_remove (queue : WaitQueue) (tid : Tid) : WaitQueue :=
  { queue with waiting_list := queue.waiting_list.filter (· ≠ tid) }

/-- `rt_wqueue_wakeup` up to its call of `rt_schedule`; all nodes have `__wqueue_default_wake`. -/
def rt_wqueue_wakeup (queue : WaitQueue) (s : Rtos) : Option (Rtos × WaitQueue) :=
  match queue.waiting_list with
  | [] => some (s, queue.rt_wqueue_wakeup)
  | tid :: _ => do
    let (s, _) ← s.rt_thread_resume tid
    return (s, queue.rt_wqueue_wakeup)

end Waitqueue

/-! ### The machine -/

/-- A thread suspended in `rt_wqueue_wait`, or resumed and before its second critical section, is
`waiting`; then it has yet to remove its node. -/
inductive WaitqueuePc where
  | idle
  | waiting
  | cleaned
  deriving DecidableEq, Repr

/-- What a call did: a wakeup found these suspended threads in the list and resumed one or none; a wait was
owed a wakeup or not, and was suspended or not. -/
inductive WaitqueueEvent where
  | wakeup (suspended : List Tid) (resumed : Option Tid)
  | wait (owed suspends : Bool)
  deriving DecidableEq, Repr

/-- A wait queue and the threads that use it.  A wait is `owed` a wakeup that found the list empty. -/
structure WaitqueueSystem where
  os : Rtos
  queue : WaitQueue
  pc : Tid → WaitqueuePc
  owed : Bool
  log : List WaitqueueEvent

inductive WaitqueueStep where
  | wait (t : Tid) (condition : Bool) (msec : Int)
  | clean (t : Tid)
  | remove (t : Tid)
  | wakeup
  | timeout (t : Tid)
  | schedule
  | other (os : Rtos)

namespace WaitqueueSystem

def setPc (c : WaitqueueSystem) (t : Tid) (pc : WaitqueuePc) : WaitqueueSystem :=
  { c with pc := Function.update c.pc t pc }

@[simp] theorem setPc_self (c : WaitqueueSystem) (t : Tid) (pc : WaitqueuePc) : (c.setPc t pc).pc t = pc :=
  Function.update_self ..

theorem setPc_of_ne (c : WaitqueueSystem) {t u : Tid} (pc : WaitqueuePc) (hut : u ≠ t) :
    (c.setPc t pc).pc u = c.pc u :=
  Function.update_of_ne hut ..

/-- The suspended threads of the list. -/
def suspended (c : WaitqueueSystem) : List Tid :=
  c.queue.waiting_list.filter fun t => (c.os.threads t).stat = .SUSPEND

def wait (c : WaitqueueSystem) (t : Tid) (condition : Bool) (msec : Int) : Option WaitqueueSystem :=
  if Runs c.os t ∧ c.pc t = .idle then do
    let (os, queue, outcome) ← Waitqueue.rt_wqueue_wait c.queue c.os condition msec
    match outcome with
    | .returned _ =>
      return { c with
        os := os, queue := queue, owed := c.owed && queue.flag, log := c.log ++ [.wait c.owed false] }
    | .suspended =>
      return { c.setPc t .waiting with
        os := os, queue := queue, owed := false, log := c.log ++ [.wait c.owed true] }
  else none

def clean (c : WaitqueueSystem) (t : Tid) : Option WaitqueueSystem :=
  if Runs c.os t ∧ c.pc t = .waiting then
    some { c.setPc t .cleaned with queue := Waitqueue.clean c.queue }
  else none

def remove (c : WaitqueueSystem) (t : Tid) : Option WaitqueueSystem :=
  if Runs c.os t ∧ c.pc t = .cleaned then
    some { c.setPc t .idle with queue := Waitqueue.rt_wqueue_remove c.queue t }
  else none

/-- The first thread of the list, if it was suspended and is no longer. -/
def resumed (c : WaitqueueSystem) (os : Rtos) : Option Tid :=
  c.queue.waiting_list.head?.filter fun t =>
    (c.os.threads t).stat = .SUSPEND ∧ (os.threads t).stat ≠ .SUSPEND

def wakeup (c : WaitqueueSystem) : Option WaitqueueSystem := do
  let (os, queue) ← Waitqueue.rt_wqueue_wakeup c.queue c.os
  return { c with
    os := os
    queue := queue
    owed := c.owed || c.queue.waiting_list.isEmpty
    log := c.log ++ [.wakeup c.suspended (c.resumed os)] }

/-- The timer of a waiting thread expires. -/
def timeout (c : WaitqueueSystem) (t : Tid) : Option WaitqueueSystem :=
  if c.pc t = .waiting ∧ (c.os.threads t).thread_timer.activated = true then
    (c.os.timerExpires t).map fun os => { c with os := os }
  else none

def step (c : WaitqueueSystem) : WaitqueueStep → Option WaitqueueSystem
  | .wait t condition msec => c.wait t condition msec
  | .clean t => c.clean t
  | .remove t => c.remove t
  | .wakeup => c.wakeup
  | .timeout t => c.timeout t
  | .schedule => c.os.rt_schedule.map fun os => { c with os := os }
  | .other _ => none

/-- What the rest of the system may do: anything that neither suspends nor resumes the threads that are
inside `rt_wqueue_wait`. -/
structure Beside (c : WaitqueueSystem) (os : Rtos) : Prop where
  inv : Inv os
  suspended : ∀ t, c.pc t ≠ .idle →
    ((os.threads t).stat = .SUSPEND ↔ (c.os.threads t).stat = .SUSPEND)

/-- A queue that was initialised, and that nobody has used. -/
structure Fresh (c : WaitqueueSystem) : Prop where
  inv : Inv c.os
  flag : c.queue.flag = false
  waiting_list : c.queue.waiting_list = []
  pc : ∀ t, c.pc t = .idle
  owed : c.owed = false
  log : c.log = []

end WaitqueueSystem

def waitqueueMachine : Machine WaitqueueSystem WaitqueueStep where
  start := WaitqueueSystem.Fresh
  step c l c' := c.step l = some c' ∨ ∃ os, l = .other os ∧ c' = { c with os := os } ∧ c.Beside os

/-- A wakeup that finds suspended threads resumes one of them, and a wait that is owed a wakeup is not
suspended. -/
def WaitqueueEvent.Good : WaitqueueEvent → Prop
  | .wakeup suspended resumed => suspended ≠ [] → ∃ t ∈ suspended, resumed = some t
  | .wait owed suspends => owed = true → suspends = false

namespace WaitqueueSystem

/-- No wakeup is lost: all calls did what they have to, the next wait finds the wakeup that it is owed, and
who is suspended in a wait is in the list. -/
structure WaitqueueContract (c : WaitqueueSystem) : Prop where
  log : ∀ e ∈ c.log, e.Good
  owed : c.owed = true → c.queue.flag = true
  listed : ∀ t, c.pc t = .waiting → (c.os.threads t).stat = .SUSPEND → t ∈ c.queue.waiting_list

/-- A wakeup that finds suspended threads finds one at the head of the list, and no thread that was
suspended before clears the flag while a wait is owed a wakeup. -/
def Heard (c : WaitqueueSystem) : WaitqueueStep → Prop
  | .wakeup => c.suspended ≠ [] → ∀ t, c.queue.waiting_list.head? = some t →
    (c.os.threads t).stat = .SUSPEND
  | .clean _ => c.owed = false
  | _ => True

/-! ### The invariant -/

structure WaitqueueInv (c : WaitqueueSystem) : Prop where
  inv : Inv c.os
  contract : WaitqueueContract c
  inside : ∀ t ∈ c.queue.waiting_list, c.pc t ≠ .idle

variable {c c' : WaitqueueSystem} {t : Tid}

theorem Fresh.waitqueueInv (h : c.Fresh) : WaitqueueInv c := by
  refine ⟨h.inv, ⟨?_, ?_, ?_⟩, ?_⟩
  · simp [h.log]
  · simp [h.owed]
  · simp [h.pc]
  · simp [h.waiting_list]

theorem WaitqueueInv.beside {os : Rtos} (h : WaitqueueInv c) (hb : c.Beside os) :
    WaitqueueInv { c with os := os } := by
  refine ⟨hb.inv, ⟨h.contract.log, h.contract.owed, fun t hpc hst => ?_⟩, h.inside⟩
  exact h.contract.listed t hpc ((hb.suspended t (by rw [hpc]; decide)).mp hst)

theorem good_append {log : List WaitqueueEvent} {e : WaitqueueEvent} (h : ∀ e ∈ log, e.Good)
    (he : e.Good) : ∀ e' ∈ log ++ [e], e'.Good := by
  intro e' hm
  rcases List.mem_append.mp hm with hm | hm
  · exact h e' hm
  · rw [List.mem_singleton.mp hm]
    exact he

/-- The thread that goes to sleep; the others are as they were. -/
theorem startTimer_asleep {s s' : Rtos} {tick : Int} (h : Inv s) (hrun : (s.threads t).stat = .RUNNING)
    (hs : Waitqueue.startTimer (putToSleep s t) t tick = some s') :
    Inv s' ∧ ∀ u, u ≠ t → s'.threads u = s.threads u := by
  have hinv := putToSleep_inv h (Or.inr hrun)
  unfold Waitqueue.startTimer at hs
  split at hs
  · refine ⟨rt_timer_start_inv hinv (by rw [putToSleep_self]) hs, fun u hut => ?_⟩
    obtain ⟨-, hs⟩ := RT_ASSERT_bind_eq_some.mp hs
    obtain rfl := Option.some.inj hs
    rw [setThread_of_ne _ t _ hut, putToSleep_of_ne hut]
  · obtain rfl := Option.some.inj hs
    exact ⟨hinv, fun u hut => putToSleep_of_ne hut⟩

theorem WaitqueueInv.wait {condition : Bool} {msec : Int} (h : WaitqueueInv c)
    (hs : c.wait t condition msec = some c') : WaitqueueInv c' := by
  obtain ⟨⟨hrun, hidle⟩, hs⟩ := Option.ite_none_right_eq_some.mp hs
  obtain ⟨⟨os, queue, outcome⟩, hwait, hs⟩ := Option.bind_eq_some_iff.mp hs
  unfold Waitqueue.rt_wqueue_wait at hwait
  dsimp only at hwait
  split at hwait
  · cases hwait
    obtain rfl := Option.some.inj hs
    refine ⟨h.inv, ⟨good_append h.contract.log fun _ => rfl, fun ho => ?_, h.contract.listed⟩,
      h.inside⟩
    exact (Bool.and_eq_true_iff.mp ho).2
  split at hwait
  · cases hwait
    obtain rfl := Option.some.inj hs
    refine ⟨h.inv, ⟨good_append h.contract.log fun _ => rfl, fun ho => ?_, h.contract.listed⟩,
      h.inside⟩
    exact (Bool.and_eq_true_iff.mp ho).2
  next hflag =>
  rw [hrun.1] at hwait
  simp only [Option.bind_eq_bind, Option.bind_some, rt_thread_suspend_eq h.inv (Or.inr hrun.2)] at hwait
  obtain ⟨os', hos, hwait⟩ := Option.bind_eq_some_iff.mp hwait
  cases hwait
  obtain rfl := Option.some.inj hs
  obtain ⟨hinv, hother⟩ := startTimer_asleep h.inv hrun.2 hos
  refine ⟨hinv, ⟨good_append h.contract.log fun howed => ?_,
    fun ho => (by cases ho), fun u hu hst => ?_⟩,
    fun u hu => ?_⟩
  · exact absurd (h.contract.owed howed) hflag
  · by_cases hut : u = t
    · exact List.mem_append.mpr (Or.inr (List.mem_singleton.mpr hut))
    · have hu : c.pc u = .waiting := (c.setPc_of_ne _ hut).symm.trans hu
      have hst : (c.os.threads u).stat = .SUSPEND := by rw [← hother u hut]; exact hst
      exact List.mem_append.mpr (Or.inl (h.contract.listed u hu hst))
  · show (c.setPc t .waiting).pc u ≠ .idle
    by_cases hut : u = t
    · rw [hut, setPc_self]
      decide
    · rw [c.setPc_of_ne _ hut]
      rcases List.mem_append.mp hu with hu | hu
      · exact h.inside u hu
      · exact absurd (List.mem_singleton.mp hu) hut

/-- A thread that runs moves on in its wait, and is not suspended in it. -/
theorem WaitqueueInv.moves {queue : WaitQueue} {pc : WaitqueuePc} (h : WaitqueueInv c) (hrun : Runs c.os t)
    (howed : c.owed = true → queue.flag = true)
    (hlist : ∀ u, u ≠ t → (u ∈ queue.waiting_list ↔ u ∈ c.queue.waiting_list))
    (hself : t ∈ queue.waiting_list → pc ≠ .idle) :
    WaitqueueInv { c.setPc t pc with queue := queue } := by
  refine ⟨h.inv, ⟨h.contract.log, howed, fun u hu hst => ?_⟩, fun u hu => ?_⟩
  · have hut : u ≠ t := by
      rintro rfl
      exact absurd (hrun.2.symm.trans hst) (by decide)
    exact (hlist u hut).mpr (h.contract.listed u ((c.setPc_of_ne _ hut).symm.trans hu) hst)
  · show (c.setPc t pc).pc u ≠ .idle
    by_cases hut : u = t
    · subst hut
      rw [setPc_self]
      exact hself hu
    · rw [c.setPc_of_ne _ hut]
      exact h.inside u ((hlist u hut).mp hu)

theorem WaitqueueInv.clean (h : WaitqueueInv c) (howed : c.owed = false) (hs : c.clean t = some c') :
    WaitqueueInv c' := by
  obtain ⟨⟨hrun, -⟩, hs⟩ := Option.ite_none_right_eq_some.mp hs
  obtain rfl := Option.some.inj hs
  refine h.moves hrun (fun ho => ?_) (fun u _ => Iff.rfl) fun _ => by decide
  rw [howed] at ho
  cases ho

theorem WaitqueueInv.remove (h : WaitqueueInv c) (hs : c.remove t = some c') : WaitqueueInv c' := by
  obtain ⟨⟨hrun, -⟩, hs⟩ := Option.ite_none_right_eq_some.mp hs
  obtain rfl := Option.some.inj hs
  refine h.moves hrun h.contract.owed (fun u hut => ?_) fun ht => ?_
  · simp [Waitqueue.rt_wqueue_remove, hut]
  · simp [Waitqueue.rt_wqueue_remove] at ht

/-- A resume of a thread that is not suspended does nothing. -/
theorem rt_thread_resume_awake {s : Rtos} {r : Rtos × Int} (hst : (s.threads t).stat ≠ .SUSPEND)
    (hr : s.rt_thread_resume t = some r) : r.1 = s := by
  obtain ⟨-, hr⟩ := RT_ASSERT_bind_eq_some.mp hr
  rw [if_pos hst] at hr
  obtain rfl := Option.some.inj hr
  rfl

theorem mem_suspended : t ∈ c.suspended ↔
    t ∈ c.queue.waiting_list ∧ (c.os.threads t).stat = .SUSPEND := by
  simp [suspended]

/-- Nobody is in the list. -/
theorem WaitqueueInv.wakeup_nobody (h : WaitqueueInv c) (hlist : c.queue.waiting_list = [])
    (hs : c.wakeup = some c') : WaitqueueInv c' := by
  obtain ⟨⟨os, queue⟩, hw, hs⟩ := Option.bind_eq_some_iff.mp hs
  obtain rfl := Option.some.inj hs
  rw [Waitqueue.rt_wqueue_wakeup, hlist] at hw
  obtain ⟨rfl, rfl⟩ := Prod.mk.inj (Option.some.inj hw)
  refine ⟨h.inv, ⟨good_append h.contract.log fun hne => ?_, fun _ => rfl, fun u hu hst => ?_⟩,
    fun u hu => ?_⟩
  · exact absurd (by rw [suspended, hlist]; rfl) hne
  · have := h.contract.listed u hu hst
    rw [hlist] at this
    cases this
  · refine h.inside u ?_
    rw [hlist]
    simpa [WaitQueue.rt_wqueue_wakeup, hlist] using hu

/-- The first thread of the list is resumed, or is awake already. -/
theorem WaitqueueInv.wakeup_first {tid : Tid} {rest : List Tid} (h : WaitqueueInv c)
    (hlist : c.queue.waiting_list = tid :: rest) (hheard : c.Heard .wakeup)
    (hs : c.wakeup = some c') : WaitqueueInv c' := by
  obtain ⟨⟨os, queue⟩, hw, hs⟩ := Option.bind_eq_some_iff.mp hs
  obtain rfl := Option.some.inj hs
  rw [Waitqueue.rt_wqueue_wakeup, hlist] at hw
  obtain ⟨⟨os', err⟩, hresume, hw⟩ := Option.bind_eq_some_iff.mp hw
  obtain ⟨rfl, rfl⟩ := Prod.mk.inj (Option.some.inj hw)
  have hrest : c.queue.rt_wqueue_wakeup.waiting_list = rest := by
    rw [WaitQueue.rt_wqueue_wakeup, hlist]
    rfl
  have hinside : ∀ u ∈ c.queue.rt_wqueue_wakeup.waiting_list, c.pc u ≠ .idle := by
    intro u hu
    rw [hrest] at hu
    exact h.inside u (by rw [hlist]; exact List.mem_cons_of_mem _ hu)
  have hlisted : ∀ u, u ≠ tid → u ∈ c.queue.waiting_list → u ∈ c.queue.rt_wqueue_wakeup.waiting_list := by
    intro u hut hu
    rw [hlist] at hu
    rw [hrest]
    exact (List.mem_cons.mp hu).resolve_left hut
  by_cases hst : (c.os.threads tid).stat = .SUSPEND
  · have ht := h.inv.thread tid (by simp)
    rw [rt_thread_resume_eq (ht.object (by simp [hst])) hst] at hresume
    obtain ⟨rfl, -⟩ := Prod.mk.inj (Option.some.inj hresume)
    have hawake : ((wake c.os tid).threads tid).stat ≠ .SUSPEND := by
      rw [wake_threads_self]
      dsimp only
      split <;> decide
    refine ⟨wake_inv h.inv hst, ⟨good_append h.contract.log fun _ => ⟨tid, ?_, ?_⟩, fun _ => rfl,
      fun u hu hsu => ?_⟩, hinside⟩
    · exact mem_suspended.mpr ⟨by rw [hlist]; exact List.mem_cons_self, hst⟩
    · simp [resumed, hlist, hst, hawake]
    · have hut : u ≠ tid := by
        rintro rfl
        exact hawake hsu
      have hsu : (c.os.threads u).stat = .SUSPEND := by rw [← wake_threads_of_ne hut]; exact hsu
      exact hlisted u hut (h.contract.listed u hu hsu)
  · obtain rfl : os' = c.os := rt_thread_resume_awake hst hresume
    refine ⟨h.inv, ⟨good_append h.contract.log fun hne => ?_, fun _ => rfl, fun u hu hsu => ?_⟩,
      hinside⟩
    · exact absurd (hheard hne tid (by rw [hlist]; rfl)) hst
    · have hut : u ≠ tid := by
        rintro rfl
        exact hst hsu
      exact hlisted u hut (h.contract.listed u hu hsu)

theorem WaitqueueInv.wakeup (h : WaitqueueInv c) (hheard : c.Heard .wakeup)
    (hs : c.wakeup = some c') : WaitqueueInv c' := by
  cases hlist : c.queue.waiting_list with
  | nil => exact h.wakeup_nobody hlist hs
  | cons tid rest => exact h.wakeup_first hlist hheard hs

/-- The others are neither suspended nor resumed by a timeout. -/
theorem timerExpires_suspended {s s' : Rtos} {u : Tid} (h : Inv s) (hs : s.timerExpires t = some s')
    (hut : u ≠ t) : (s'.threads u).stat = .SUSPEND ↔ (s.threads u).stat = .SUSPEND := by
  obtain ⟨s1, h1, hs⟩ := Option.bind_eq_some_iff.mp hs
  rw [rt_schedule_suspended (expire_timedOut h h1).inv hs]
  obtain ⟨-, h1⟩ := RT_ASSERT_bind_eq_some.mp h1
  obtain ⟨-, h1⟩ := RT_ASSERT_bind_eq_some.mp h1
  obtain rfl := Option.some.inj h1
  rw [insert_threads_of_ne _ t hut, list_remove_threads, setThread_of_ne _ t _ hut, rt_timer_stop,
    setThread_of_ne _ t _ hut]

theorem WaitqueueInv.timeout (h : WaitqueueInv c) (hs : c.timeout t = some c') : WaitqueueInv c' := by
  obtain ⟨-, hs⟩ := Option.ite_none_right_eq_some.mp hs
  obtain ⟨os, hos, rfl⟩ := Option.map_eq_some_iff.mp hs
  refine ⟨(timerExpires_timedOut h.inv hos).inv, ⟨h.contract.log, h.contract.owed,
    fun u hu hst => ?_⟩, h.inside⟩
  have hut : u ≠ t := by
    rintro rfl
    exact timerExpires_awake h.inv hos hst
  exact h.contract.listed u hu ((timerExpires_suspended h.inv hos hut).mp hst)

theorem WaitqueueInv.step {l : WaitqueueStep} (h : WaitqueueInv c) (hheard : c.Heard l)
    (hs : c.step l = some c') : WaitqueueInv c' := by
  cases l with
  | wait t condition msec => exact h.wait hs
  | clean t => exact h.clean hheard hs
  | remove t => exact h.remove hs
  | wakeup => exact h.wakeup hheard hs
  | timeout t => exact h.timeout hs
  | schedule =>
    obtain ⟨os, hos, rfl⟩ := Option.map_eq_some_iff.mp hs
    exact h.beside ⟨rt_schedule_inv h.inv hos, fun t _ => rt_schedule_suspended h.inv hos t⟩
  | other os => cases hs

/-- In every run in which every wakeup that finds suspended threads finds one at the head, and no thread
that was suspended clears the flag while a wait is owed a wakeup, no wakeup is lost. -/
theorem wakeup_heard (hr : (waitqueueMachine.restrict Heard).Reachable c) : WaitqueueContract c := by
  have hinv : WaitqueueInv c := by
    apply hr.invariant
    · exact fun c h => h.waitqueueInv
    · rintro c l c' - h ⟨hheard, hs | ⟨os, -, rfl, hb⟩⟩
      · exact h.step hheard hs
      · exact h.beside hb
  exact hinv.contract

def newQueue (os : Rtos) : WaitqueueSystem :=
  { os := os, queue := { flag := false, waiting_list := [] }, pc := fun _ => .idle, owed := false, log := [] }

theorem newQueue_fresh {os : Rtos} (hos : startedThreads = some os) : (newQueue os).Fresh :=
  ⟨startedThreads_inv hos, rfl, rfl, fun _ => rfl, rfl, rfl⟩

instance (c : WaitqueueSystem) (l : WaitqueueStep) : Decidable (c.Heard l) :=
  match l with
  | .wakeup => inferInstanceAs (Decidable (c.suspended ≠ [] → ∀ t, c.queue.waiting_list.head? = some t →
      (c.os.threads t).stat = .SUSPEND))
  | .clean _ => inferInstanceAs (Decidable (c.owed = false))
  | .wait .. | .remove _ | .timeout _ | .schedule | .other _ => inferInstanceAs (Decidable True)

/-- The steps of the runs in which every wakeup is heard. -/
def heardStep (c : WaitqueueSystem) (l : WaitqueueStep) : Option WaitqueueSystem :=
  if c.Heard l then c.step l else none

/-- A wakeup before the wait, and then one for a thread that waits. -/
def twoWakeups : List WaitqueueStep :=
  [.wakeup, .wait 1 false 10, .wait 1 false 10, .schedule, .wakeup, .schedule, .clean 1, .remove 1]

theorem wakeup_heard_twice : ∃ os, startedThreads = some os ∧
    ∃ c, Machine.runs heardStep (newQueue os) twoWakeups = some c ∧
      c.log = [.wakeup [] none, .wait true false, .wait false true, .wakeup [1] (some 1)] ∧
      WaitqueueContract c := by
  have hrun : ∃ os, startedThreads = some os ∧
      ∃ c, Machine.runs heardStep (newQueue os) twoWakeups = some c ∧
        c.log = [.wakeup [] none, .wait true false, .wait false true, .wakeup [1] (some 1)] := by
    decide +kernel
  obtain ⟨os, hos, c, hc, hlog⟩ := hrun
  refine ⟨os, hos, c, hc, hlog, wakeup_heard ?_⟩
  refine (Machine.Reachable.start (newQueue_fresh hos)).runs (fun c l c' hs => ?_) hc
  obtain ⟨hheard, hs⟩ := Option.ite_none_right_eq_some.mp hs
  exact ⟨hheard, Or.inl hs⟩

/-- Thread 1 has timed out, and has not taken its node out when the wakeup comes. -/
def wakeupForTimedOut : List WaitqueueStep :=
  [.wait 1 false 10, .schedule, .wait 2 false (-1), .schedule, .timeout 1, .wakeup]

theorem wakeup_heard_fails : ¬∀ c, waitqueueMachine.Reachable c → WaitqueueContract c := by
  have hrun : ∃ os, startedThreads = some os ∧
      ∃ c, Machine.runs WaitqueueSystem.step (newQueue os) wakeupForTimedOut = some c ∧
        c.log = [.wait false true, .wait false true, .wakeup [2] none] := by
    decide +kernel
  obtain ⟨os, hos, c, hc, hlog⟩ := hrun
  intro h
  have hr : waitqueueMachine.Reachable c :=
    (Machine.Reachable.start (newQueue_fresh hos)).runs (fun _ _ _ hs => Or.inl hs) hc
  have hgood := (h c hr).log (.wakeup [2] none) (by simp [hlog])
  obtain ⟨t, -, ht⟩ := hgood (by decide)
  cases ht

end WaitqueueSystem

end Ab32Vg1.Drivers
