import Ab32Vg1.Drivers.WorkqueueRun
import Ab32Vg1.Kernel.Semaphore
import Ab32Vg1.ProofKit.Fuel

/-! `rt_workqueue_cancel_work_sync`, which waits for the end of an item that is being executed, among
the worker's steps, the submissions and the other cancellations. -/

namespace Ab32Vg1.Drivers

open ProofKit Kernel

/-- The loop of `_workqueue_work_completion`, in which the scheduler is locked; `rt_sem_trytake` is
`rt_sem_take` with a time of 0. -/
def _workqueue_work_completion (sem : Semaphore) (s : Rtos) : Nat → Option (Rtos × Semaphore × Int)
  | 0 => none
  | fuel + 1 =>
    match sem.rt_sem_take s 0 with
    | some (s, sem, .returned result) =>
      if result = -RT_ETIMEOUT then do
        let (s, sem, _) ← sem.rt_sem_release s
        _workqueue_work_completion sem s fuel
      else if result = RT_EOK then some (s, sem, RT_EOK)
      else some (s, sem, -RT_ERROR)
    | _ => none

/-! ### The machine -/

/-- Where a caller of `rt_workqueue_cancel_work_sync` is: it has found the item to be the current one,
or not to be; it is in `rt_sem_take`; it has cancelled the item. -/
inductive SyncPc where
  | idle
  | takes (work : WorkId)
  | cancels (work : WorkId)
  | waits (work : WorkId)
  | cancelled (work : WorkId)
  deriving DecidableEq, Repr

def SyncPc.work : SyncPc → Option WorkId
  | .idle => none
  | .takes work | .cancels work | .waits work | .cancelled work => some work

/-- A call that has returned: its item, whether that was submitted again since the call, and whether it
is in a list or being executed. -/
structure SyncReturn where
  work : WorkId
  again : Bool
  queued : Bool
  executed : Bool
  deriving DecidableEq, Repr

/-- A workqueue with its semaphore and the threads that cancel items.  While `completing`, the worker has
cleared `work_current` and has yet to acknowledge the completion.  The worker and the submissions may take
a step at any time. -/
structure SyncSystem where
  works : WqSystem
  completing : Bool
  os : Rtos
  sem : Semaphore
  pc : Tid → SyncPc
  again : Tid → Bool
  returned : List SyncReturn

inductive SyncStep where
  | works (l : WqStep)
  | complete
  | check (t : Tid) (work : WorkId)
  | take (t : Tid)
  | cancel (t : Tid)
  | ret (t : Tid)
  | schedule
  | other (os : Rtos)

/-- The item of a submission. -/
def WqStep.submits : WqStep → Option WorkId
  | .submit item _ | .critical item => some item
  | _ => none

namespace WqSystem

/-- An item is in a list. -/
def Queued (c : WqSystem) (work : WorkId) : Prop :=
  work ∈ c.queue.work_list ∨ work ∈ c.queue.delayed_list

instance (c : WqSystem) (work : WorkId) : Decidable (c.Queued work) :=
  inferInstanceAs (Decidable (_ ∨ _))

/-- An item is in no list, and no timer will put it there. -/
def Clear (c : WqSystem) (work : WorkId) : Prop :=
  ¬c.Queued work ∧ (c.queue.works work).timer = .detached

instance (c : WqSystem) (work : WorkId) : Decidable (c.Clear work) :=
  inferInstanceAs (Decidable (_ ∧ _))

end WqSystem

namespace SyncSystem

/-- The threads suspended in `rt_workqueue_cancel_work_sync`. -/
def suspended (c : SyncSystem) : List Tid := c.os.suspend_thread c.sem.suspend_thread

def setPc (c : SyncSystem) (t : Tid) (pc : SyncPc) : SyncSystem :=
  { c with pc := Function.update c.pc t pc }

/-- A step of the queue; the worker takes no item before the completion of the last one, and a submission
that is accepted is one again for those who cancel its item. -/
def stepWorks (c : SyncSystem) (l : WqStep) : Option SyncSystem :=
  if l = .work ∧ c.completing = true then none
  else (c.works.step l).map fun works => { c with
    works := works
    completing := c.completing || l = .done
    again := fun t => c.again t ||
      ((c.pc t).work = l.submits ∧ works.submissions ≠ c.works.submissions) }

/-- The end of the worker's loop. -/
def complete (c : SyncSystem) : Option SyncSystem :=
  if c.completing = true then do
    let (os, sem, _) ← _workqueue_work_completion c.sem c.os (c.suspended.length + 2)
    return { c with os := os, sem := sem, completing := false }
  else none

/-- The call, up to the test of `work_current`. -/
def check (c : SyncSystem) (t : Tid) (work : WorkId) : Option SyncSystem :=
  if Runs c.os t ∧ c.pc t = .idle then
    some { c with
      pc := Function.update c.pc t
        (if c.works.queue.work_current = some work then .takes work else .cancels work)
      again := Function.update c.again t false }
  else none

def take (c : SyncSystem) (t : Tid) : Option SyncSystem :=
  match c.pc t with
  | .takes work =>
    if Runs c.os t then do
      let (os, sem, _) ← c.sem.rt_sem_take c.os (-1)
      return { c.setPc t (.waits work) with os := os, sem := sem }
    else none
  | _ => none

def cancel (c : SyncSystem) (t : Tid) : Option SyncSystem :=
  match c.pc t with
  | .cancels work =>
    if Runs c.os t then
      (c.works.step (.cancel work)).map fun works => { c.setPc t (.cancelled work) with works := works }
    else none
  | _ => none

/-- `rt_workqueue_cancel_work_sync` returns. -/
def ret (c : SyncSystem) (t : Tid) : Option SyncSystem :=
  match c.pc t with
  | .waits work | .cancelled work =>
    if Runs c.os t then
      some { c.setPc t .idle with
        returned := c.returned ++ [⟨work, c.again t, c.works.Queued work,
          c.works.queue.work_current = some work⟩] }
    else none
  | _ => none

def step (c : SyncSystem) : SyncStep → Option SyncSystem
  | .works l => c.stepWorks l
  | .complete => c.complete
  | .check t work => c.check t work
  | .take t => c.take t
  | .cancel t => c.cancel t
  | .ret t => c.ret t
  | .schedule => c.os.rt_schedule.map fun os => { c with os := os }
  | .other _ => none

/-- A queue that has just been created. -/
structure Fresh (c : SyncSystem) : Prop where
  works : c.works.Fresh
  completing : c.completing = false
  inv : Inv c.os
  value : c.sem.value = 0
  suspended : c.suspended = []
  pc : ∀ t, c.pc t = .idle
  returned : c.returned = []

/-- The worker is busy, or will be: it executes an item, it has yet to acknowledge one, or an item will
come to it. -/
def Due (c : SyncSystem) : Prop :=
  c.works.queue.work_current ≠ none ∨ c.completing = true ∨ ∃ work, c.works.Scheduled work

end SyncSystem

def syncMachine : Machine SyncSystem SyncStep where
  start := SyncSystem.Fresh
  step c l c' := c.step l = some c' ∨ ∃ os, l = .other os ∧ c' = { c with os := os } ∧
    Elsewhere (· = c.sem.suspend_thread) (fun t => c.pc t ≠ .idle) c.os os

namespace SyncSystem

/-- No caller is suspended without a completion to come, and a call that returns leaves its item neither
queued nor being executed, unless that was submitted again. -/
structure SyncContract (c : SyncSystem) : Prop where
  suspended : ∀ t work, c.pc t = .waits work → t ∈ c.suspended → c.Due
  returned : ∀ r ∈ c.returned, r.again = false → r.queued = false ∧ r.executed = false

/-- The item that is being executed is not queued too when its cancellation begins; the completion is still
to come when a caller takes the semaphore; and the worker has not begun with the item when it is
cancelled. -/
def Heard (c : SyncSystem) : SyncStep → Prop
  | .check _ work => c.works.queue.work_current = some work → c.works.Clear work
  | .take _ => c.works.queue.work_current ≠ none ∨ c.completing = true
  | .cancel t => (c.pc t).work ≠ c.works.queue.work_current
  | _ => True

end SyncSystem

/-! ### What every run of the queue keeps -/

namespace Workqueue

variable {queue queue' : Workqueue} {work v : WorkId}

/-- No item is twice in the lists, and an item that is not being submitted has no timer. -/
structure Sane (queue : Workqueue) : Prop where
  lists : queue.Lists
  timer : ∀ work, (queue.works work).submitting = false → (queue.works work).timer = .detached

theorem Lists.congr (h : queue.Lists) (hw : queue'.work_list = queue.work_list)
    (hd : queue'.delayed_list = queue.delayed_list) : queue'.Lists := by
  refine ⟨?_, ?_, ?_⟩
  · rw [hw]
    exact h.work_list
  · rw [hd]
    exact h.delayed_list
  · rw [hw, hd]
    exact h.apart

theorem Sane.of {w : Work} (h : queue.Sane) (hl : queue'.Lists)
    (hworks : queue'.works = Function.update queue.works work w)
    (hw : w.submitting = false → w.timer = .detached) : queue'.Sane := by
  refine ⟨hl, fun v => ?_⟩
  rw [hworks]
  by_cases hv : v = work
  · rw [hv, Function.update_self]
    exact hw
  · rw [Function.update_of_ne hv]
    exact h.timer v

theorem Sane.removed (h : queue.Sane) (work : WorkId) {w : Work}
    (hw : w.submitting = false → w.timer = .detached) : ((queue.rt_list_remove work).setWork work w).Sane :=
  h.of ((h.lists.remove work).congr rfl rfl) rfl hw

theorem Sane.inserted (h : queue.Sane) (work : WorkId) {w : Work} {l : List WorkId} {suspended : Bool}
    (hl : l.Perm (work :: (queue.rt_list_remove work).work_list))
    (hw : w.submitting = false → w.timer = .detached) :
    ({ queue.rt_list_remove work with
      work_list := l, works := Function.update queue.works work w, suspended := suspended } :
        Workqueue).Sane :=
  h.of ((h.lists.remove work).insert hl (h.lists.not_mem_remove work) _ _) rfl hw

theorem Sane.submit (h : queue.Sane) {ticks : Nat} {r : Workqueue × Int}
    (hs : queue._workqueue_submit_work work ticks = some r) : r.1.Sane := by
  unfold _workqueue_submit_work at hs
  dsimp only at hs
  split at hs
  · split at hs
    · obtain rfl := Option.some.inj hs
      exact h.inserted work (List.perm_append_singleton ..) (h.timer work)
    · obtain rfl := Option.some.inj hs
      exact h.of ((h.lists.remove work).congr rfl rfl) rfl (h.timer work)
  · split at hs
    · obtain ⟨w, hw, rfl⟩ := Option.map_eq_some_iff.mp hs
      refine h.of ((h.lists.remove work).insert_delayed (h.lists.not_mem_remove work) _) rfl ?_
      rw [WqSystem.Work.setTimer_eq hw]
      exact fun hsub => by cases hsub
    · obtain rfl := Option.some.inj hs
      exact h.removed work (h.timer work)

theorem Sane.cancelled (h : queue.Sane) {w : Work} (hw : (queue.works work).cancelled = some w) :
    w.submitting = false → w.timer = .detached := by
  obtain ⟨-, -, -, hdetached, htimer⟩ := WqSystem.Work.cancelled_eq hw
  intro _
  cases hs : (queue.works work).submitting with
  | true => exact hdetached hs
  | false => rw [htimer hs, h.timer work hs]

theorem Sane.cancel (h : queue.Sane) {r : Workqueue × Int}
    (hs : queue._workqueue_cancel_work work = some r) : r.1.Sane := by
  obtain ⟨w, hw, rfl⟩ := Option.map_eq_some_iff.mp hs
  exact h.removed work (h.cancelled hw)

theorem Sane.timeout (h : queue.Sane) (hs : queue._delayed_work_timeout_handler work = some queue') :
    queue'.Sane := by
  obtain ⟨-, hs⟩ := RT_ASSERT_bind_eq_some.mp hs
  dsimp only at hs
  split at hs
  · obtain rfl := Option.some.inj hs
    exact h.inserted work (List.perm_append_singleton ..) fun _ => rfl
  · obtain rfl := Option.some.inj hs
    exact h.of ((h.lists.remove work).congr rfl rfl) rfl fun _ => rfl

theorem Sane.thread_entry (h : queue.Sane) : queue._workqueue_thread_entry.Sane := by
  unfold _workqueue_thread_entry
  split
  · exact ⟨h.lists.congr rfl rfl, h.timer⟩
  · next work rest hl =>
    have hwl := h.lists.work_list
    rw [hl] at hwl
    refine h.of ⟨(List.nodup_cons.mp hwl).2, h.lists.delayed_list, ?_⟩ rfl (h.timer work)
    rintro v ⟨hv, hd⟩
    exact h.lists.apart v ⟨by rw [hl]; exact List.mem_cons_of_mem _ hv, hd⟩

/-- An item stays out of the lists and of the worker's hands. -/
structure LeavesOut (queue queue' : Workqueue) (v : WorkId) : Prop where
  work_list : v ∈ queue'.work_list → v ∈ queue.work_list
  delayed_list : v ∈ queue'.delayed_list → v ∈ queue.delayed_list
  timer : (queue.works v).timer = .detached → (queue'.works v).timer = .detached
  current : queue'.work_current = some v → queue.work_current = some v

theorem LeavesOut.refl (queue : Workqueue) (v : WorkId) : queue.LeavesOut queue v := ⟨id, id, id, id⟩

/-- An item is taken out of the lists, or another one is put in. -/
theorem LeavesOut.relisted {w : Work} (hv : v ≠ work ∨ w.timer = (queue.works work).timer)
    (hwork : v ∈ queue'.work_list → v ∈ queue.work_list.erase work)
    (hdelayed : v ∈ queue'.delayed_list → v ∈ queue.delayed_list.erase work)
    (hworks : queue'.works = Function.update queue.works work w)
    (hcurrent : queue'.work_current = queue.work_current) : queue.LeavesOut queue' v := by
  refine ⟨fun hm => List.mem_of_mem_erase (hwork hm), fun hm => List.mem_of_mem_erase (hdelayed hm),
    fun ht => ?_, fun hc => hcurrent ▸ hc⟩
  rw [hworks]
  by_cases hvw : v = work
  · subst hvw
    rw [Function.update_self]
    exact (hv.resolve_left (not_not_intro rfl)).trans ht
  · rw [Function.update_of_ne hvw]
    exact ht

theorem mem_append_ne {us : List WorkId} (hv : v ≠ work) (hm : v ∈ us ++ [work]) : v ∈ us :=
  (List.mem_append.mp hm).resolve_right fun h => hv (List.mem_singleton.mp h)

theorem submit_leavesOut {ticks : Nat} {err : Int}
    (hs : queue._workqueue_submit_work work ticks = some (queue', err)) (hv : v = work → err ≠ RT_EOK) :
    queue.LeavesOut queue' v := by
  unfold _workqueue_submit_work at hs
  dsimp only at hs
  split at hs
  · split at hs
    · cases hs
      have hv : v ≠ work := fun h => hv h rfl
      exact .relisted (.inl hv) (mem_append_ne hv) id rfl rfl
    · cases hs
      exact .relisted (w := { queue.works work with pending := false }) (.inr rfl) id id rfl rfl
  · split at hs
    · obtain ⟨w, -, hs⟩ := Option.map_eq_some_iff.mp hs
      cases hs
      have hv : v ≠ work := fun h => hv h rfl
      exact .relisted (.inl hv) id (mem_append_ne hv) rfl rfl
    · cases hs
      exact .relisted (w := { queue.works work with pending := false }) (.inr rfl) id id rfl rfl

theorem cancel_leavesOut {err : Int} (hs : queue._workqueue_cancel_work work = some (queue', err)) :
    queue.LeavesOut queue' v := by
  obtain ⟨w, hw, hs⟩ := Option.map_eq_some_iff.mp hs
  cases hs
  by_cases hv : v = work
  · subst hv
    refine ⟨List.mem_of_mem_erase, List.mem_of_mem_erase, fun ht => ?_, id⟩
    obtain ⟨-, -, -, hdetached, htimer⟩ := WqSystem.Work.cancelled_eq hw
    rw [WqSystem.setWork_self]
    cases hsub : (queue.works v).submitting with
    | true => exact hdetached hsub
    | false => exact (htimer hsub).trans ht
  · exact .relisted (.inl hv) id id rfl rfl

theorem timeout_leavesOut (hs : queue._delayed_work_timeout_handler work = some queue')
    (ht : (queue.works v).timer = .detached) : queue.LeavesOut queue' v := by
  obtain ⟨hwork, hs⟩ := RT_ASSERT_bind_eq_some.mp hs
  have hv : v ≠ work := by
    rintro rfl
    exact hwork ht
  dsimp only at hs
  split at hs
  · obtain rfl := Option.some.inj hs
    exact .relisted (.inl hv) (mem_append_ne hv) id rfl rfl
  · obtain rfl := Option.some.inj hs
    exact .relisted (.inl hv) id id rfl rfl

theorem thread_entry_leavesOut (hv : v ∉ queue.work_list) :
    queue.LeavesOut queue._workqueue_thread_entry v := by
  unfold _workqueue_thread_entry
  split
  · exact ⟨id, id, id, id⟩
  · next work rest hl =>
    rw [hl] at hv
    obtain ⟨hvw, hrest⟩ := not_or.mp (fun h => hv (List.mem_cons.mpr h))
    refine ⟨fun hm => absurd hm hrest, id, fun ht => ?_, fun hc => ?_⟩
    · rw [WqSystem.setWork_ne _ _ hvw]
      exact ht
    · exact absurd (Option.some.inj hc).symm hvw

end Workqueue

namespace WqSystem

variable {c c' : WqSystem} {l : WqStep} {work v : WorkId}

theorem Fresh.sane (h : c.Fresh) : c.queue.Sane :=
  ⟨h.inv.lists, fun work _ => by rw [h.works work]; rfl⟩

theorem sane_step (h : c.queue.Sane) (hs : c.step l = some c') : c'.queue.Sane := by
  cases l with
  | submit work ticks =>
    obtain ⟨⟨queue, err⟩, hq, rfl⟩ := Option.map_eq_some_iff.mp hs
    have := h.submit hq
    dsimp only
    split
    · exact this
    · exact this
  | critical work =>
    obtain rfl := Option.some.inj hs
    have hlists := (h.lists.remove work).insert (.refl _) (h.lists.not_mem_remove work) c.queue.works
      (c.queue.rt_workqueue_critical_work work).suspended
    exact ⟨hlists, h.timer⟩
  | cancel work =>
    obtain ⟨⟨queue, err⟩, hq, rfl⟩ := Option.map_eq_some_iff.mp hs
    exact h.cancel hq
  | timerStart work =>
    obtain ⟨⟨-, ht⟩, hs⟩ := Option.ite_none_right_eq_some.mp hs
    obtain rfl := Option.some.inj hs
    refine h.of (h.lists.congr rfl rfl) rfl fun hsub => ?_
    exact absurd (h.timer work hsub) ht
  | expire work =>
    obtain ⟨⟨-, ht⟩, hs⟩ := Option.ite_none_right_eq_some.mp hs
    obtain rfl := Option.some.inj hs
    refine h.of (h.lists.congr rfl rfl) rfl fun hsub => ?_
    have := h.timer work hsub
    rw [ht] at this
    cases this
  | enter =>
    simp only [step] at hs
    split at hs
    · obtain ⟨-, hs⟩ := RT_ASSERT_bind_eq_some.mp hs
      obtain rfl := Option.some.inj hs
      exact h
    · cases hs
  | timeout =>
    simp only [step] at hs
    split at hs
    · obtain ⟨queue, hq, rfl⟩ := Option.map_eq_some_iff.mp hs
      exact h.timeout hq
    · cases hs
  | work =>
    obtain ⟨-, hs⟩ := Option.ite_none_right_eq_some.mp hs
    split at hs
    · obtain rfl := Option.some.inj hs
      exact h.thread_entry
    · obtain rfl := Option.some.inj hs
      exact h.thread_entry
  | done =>
    obtain ⟨-, hs⟩ := Option.ite_none_right_eq_some.mp hs
    obtain rfl := Option.some.inj hs
    exact ⟨h.lists.congr rfl rfl, h.timer⟩

/-- An item that is not submitted stays out of the lists, and the worker does not begin with it. -/
theorem Clear.step (h : c.Clear v) (hs : c.step l = some c')
    (hnew : l.submits = some v → c'.submissions = c.submissions) :
    c'.Clear v ∧ (c'.queue.work_current = some v → c.queue.work_current = some v) := by
  have hout : c.queue.LeavesOut c'.queue v := by
    cases l with
    | submit work ticks =>
      obtain ⟨⟨queue, err⟩, hq, rfl⟩ := Option.map_eq_some_iff.mp hs
      have := Workqueue.submit_leavesOut hq fun hv herr => by
        have := hnew (congrArg some hv.symm)
        simp only [herr, if_true] at this
        exact absurd this (Nat.succ_ne_self _)
      dsimp only
      split
      · exact this
      · exact this
    | critical work =>
      obtain rfl := Option.some.inj hs
      have hv : v ≠ work := by
        rintro rfl
        exact absurd (hnew rfl) (Nat.succ_ne_self _)
      exact ⟨fun hm => List.mem_of_mem_erase ((List.mem_cons.mp hm).resolve_left hv),
        List.mem_of_mem_erase, id, id⟩
    | cancel work =>
      obtain ⟨⟨queue, err⟩, hq, rfl⟩ := Option.map_eq_some_iff.mp hs
      exact Workqueue.cancel_leavesOut hq
    | timerStart work =>
      obtain ⟨⟨-, ht⟩, hs⟩ := Option.ite_none_right_eq_some.mp hs
      obtain rfl := Option.some.inj hs
      have hv : v ≠ work := by
        rintro rfl
        exact ht h.2
      exact ⟨id, id, fun ht => by rw [setWork_ne _ _ hv]; exact ht, id⟩
    | expire work =>
      obtain ⟨⟨-, ht⟩, hs⟩ := Option.ite_none_right_eq_some.mp hs
      obtain rfl := Option.some.inj hs
      have hv : v ≠ work := by
        rintro rfl
        exact absurd (ht.symm.trans h.2) (by decide)
      exact ⟨id, id, fun ht => by rw [setWork_ne _ _ hv]; exact ht, id⟩
    | enter =>
      simp only [WqSystem.step] at hs
      split at hs
      · obtain ⟨-, hs⟩ := RT_ASSERT_bind_eq_some.mp hs
        obtain rfl := Option.some.inj hs
        exact .refl _ _
      · cases hs
    | timeout =>
      simp only [WqSystem.step] at hs
      split at hs
      · obtain ⟨queue, hq, rfl⟩ := Option.map_eq_some_iff.mp hs
        exact Workqueue.timeout_leavesOut hq h.2
      · cases hs
    | work =>
      obtain ⟨-, hs⟩ := Option.ite_none_right_eq_some.mp hs
      have hentry : c.queue.LeavesOut c.queue._workqueue_thread_entry v :=
        Workqueue.thread_entry_leavesOut fun hm => h.1 (.inl hm)
      split at hs
      · obtain rfl := Option.some.inj hs
        exact hentry
      · obtain rfl := Option.some.inj hs
        exact hentry
    | done =>
      obtain ⟨-, hs⟩ := Option.ite_none_right_eq_some.mp hs
      obtain rfl := Option.some.inj hs
      exact ⟨id, id, id, fun hc => by cases hc⟩
  refine ⟨⟨fun hq => h.1 ?_, hout.timer h.2⟩, hout.current⟩
  rcases hq with hq | hq
  · exact .inl (hout.work_list hq)
  · exact .inr (hout.delayed_list hq)

/-- Only the worker changes the current item. -/
theorem current_kept (hs : c.step l = some c') (hwork : l ≠ .work) (hdone : l ≠ .done) :
    c'.queue.work_current = c.queue.work_current := by
  cases l with
  | submit work ticks =>
    obtain ⟨⟨queue, err⟩, hq, rfl⟩ := Option.map_eq_some_iff.mp hs
    have : queue.work_current = c.queue.work_current := by
      unfold Workqueue._workqueue_submit_work at hq
      dsimp only at hq
      split at hq
      · split at hq
        · cases hq
          rfl
        · cases hq
          rfl
      · split at hq
        · obtain ⟨w, -, hq⟩ := Option.map_eq_some_iff.mp hq
          cases hq
          rfl
        · cases hq
          rfl
    dsimp only
    split
    · exact this
    · exact this
  | critical work =>
    obtain rfl := Option.some.inj hs
    rfl
  | cancel work =>
    obtain ⟨⟨queue, err⟩, hq, rfl⟩ := Option.map_eq_some_iff.mp hs
    obtain ⟨w, -, hq⟩ := Option.map_eq_some_iff.mp hq
    cases hq
    rfl
  | timerStart work =>
    obtain ⟨-, hs⟩ := Option.ite_none_right_eq_some.mp hs
    obtain rfl := Option.some.inj hs
    rfl
  | expire work =>
    obtain ⟨-, hs⟩ := Option.ite_none_right_eq_some.mp hs
    obtain rfl := Option.some.inj hs
    rfl
  | enter =>
    simp only [WqSystem.step] at hs
    split at hs
    · obtain ⟨-, hs⟩ := RT_ASSERT_bind_eq_some.mp hs
      obtain rfl := Option.some.inj hs
      rfl
    · cases hs
  | timeout =>
    simp only [WqSystem.step] at hs
    split at hs
    · obtain ⟨queue, hq, rfl⟩ := Option.map_eq_some_iff.mp hs
      obtain ⟨-, hq⟩ := RT_ASSERT_bind_eq_some.mp hq
      dsimp only at hq
      split at hq
      · obtain rfl := Option.some.inj hq
        rfl
      · obtain rfl := Option.some.inj hq
        rfl
    · cases hs
  | work => exact absurd rfl hwork
  | done => exact absurd rfl hdone

/-- A cancelled item is in no list, and no timer will put it there. -/
theorem cancel_clear (h : c.queue.Sane) (hs : c.step (.cancel v) = some c') :
    c'.Clear v ∧ c'.queue.work_current = c.queue.work_current := by
  obtain ⟨⟨queue, err⟩, hq, rfl⟩ := Option.map_eq_some_iff.mp hs
  obtain ⟨w, hw, hq⟩ := Option.map_eq_some_iff.mp hq
  cases hq
  obtain ⟨hwl, hd⟩ := h.lists.not_mem_remove v
  refine ⟨⟨fun hm => hm.elim hwl hd, ?_⟩, rfl⟩
  rw [setWork_self]
  exact h.cancelled hw (Work.cancelled_eq hw).2.1

end WqSystem

/-! ### The completion -/

/-- All threads that wait for the semaphore are woken, and its value is 0 again. -/
theorem completion_returns {sem : Semaphore} (hv : sem.value = 0) (n : Nat) {s : Rtos} (h : Inv s)
    (hn : (s.suspend_thread sem.suspend_thread).length = n) :
    Returns (_workqueue_work_completion sem s) (n + 1) fun r =>
      Inv r.1 ∧ r.2.1 = sem ∧ r.1.suspend_thread sem.suspend_thread = [] ∧ r.2.2 = RT_EOK := by
  have htry : ∀ s : Rtos, sem.rt_sem_take s 0 = some (s, sem, .returned (-RT_ETIMEOUT)) := by
    intro s
    rw [Semaphore.rt_sem_take, if_neg (by omega), if_pos rfl]
  induction n generalizing s with
  | zero =>
    -- the semaphore is released, and taken again
    have hlist : s.suspend_thread sem.suspend_thread = [] := List.eq_nil_of_length_eq_zero hn
    have hagain : Returns (_workqueue_work_completion { sem with value := 1 } s) 0 fun r =>
        Inv r.1 ∧ r.2.1 = sem ∧ r.1.suspend_thread sem.suspend_thread = [] ∧ r.2.2 = RT_EOK := by
      refine .stop rfl (fun k => rfl) ⟨h, ?_, hlist, rfl⟩
      show { sem with value := 0 } = sem
      rw [← hv]
    refine .step rfl (fun k => ?_) hagain
    simp [_workqueue_work_completion, htry, Semaphore.rt_sem_release, hlist, hv, RT_SEM_VALUE_MAX]
  | succ n ih =>
    obtain ⟨t, rest, hcons⟩ := List.exists_cons_of_length_eq_add_one hn
    obtain ⟨hresume, hw⟩ := rt_ipc_list_resume_woken h hcons
    have htail : (wake s t).suspend_thread sem.suspend_thread = rest := by
      rw [hw.suspend, if_pos rfl, hcons, List.tail_cons]
    have hrest : rest.length = n := by
      rw [hcons] at hn
      exact Nat.succ.inj hn
    have hlast := ih hw.inv (by rw [htail, hrest])
    refine .step rfl (fun k => ?_) hlast
    simp [_workqueue_work_completion, htry, Semaphore.rt_sem_release, hcons, hresume]

namespace SyncSystem

variable {c c' : SyncSystem} {t : Tid} {work : WorkId}

/-! ### The invariant -/

structure SyncInv (c : SyncSystem) : Prop where
  sane : c.works.queue.Sane
  inv : Inv c.os
  value : c.sem.value = 0
  listed : ∀ t ∈ c.suspended, ∃ work, c.pc t = .waits work
  due : c.suspended ≠ [] → c.works.queue.work_current ≠ none ∨ c.completing = true
  idle : c.completing = true → c.works.queue.work_current = none
  clear : ∀ t work, c.pc t = .takes work ∨ c.pc t = .waits work ∨ c.pc t = .cancelled work →
    c.again t = false → c.works.Clear work
  ended : ∀ t work, c.pc t = .waits work ∧ t ∉ c.suspended ∨ c.pc t = .cancelled work →
    c.again t = false → c.works.queue.work_current ≠ some work
  returned : ∀ r ∈ c.returned, r.again = false → r.queued = false ∧ r.executed = false

theorem Fresh.syncInv (h : c.Fresh) : SyncInv c where
  sane := h.works.sane
  inv := h.inv
  value := h.value
  listed t ht := by simp [h.suspended] at ht
  due hne := absurd h.suspended hne
  idle _ := h.works.work_current
  clear t work hpc := by simp [h.pc] at hpc
  ended t work hpc := by simp [h.pc] at hpc
  returned r hr := by simp [h.returned] at hr

theorem SyncInv.contract (h : SyncInv c) : SyncContract c := by
  refine ⟨fun t work _ ht => ?_, h.returned⟩
  rcases h.due (List.ne_nil_of_mem ht) with hc | hc
  · exact .inl hc
  · exact .inr (.inl hc)

/-- Steps of the rest of the system. -/
theorem SyncInv.elsewhere {os : Rtos} (h : SyncInv c) (hinv : Inv os)
    (hlist : os.suspend_thread c.sem.suspend_thread = c.suspended) : SyncInv { c with os := os } := by
  refine ⟨h.sane, hinv, h.value, fun t ht => ?_, fun hne => ?_, h.idle, h.clear,
    fun t work hpc => ?_, h.returned⟩
  · exact h.listed t (hlist ▸ ht)
  · exact h.due (hlist ▸ hne)
  · refine h.ended t work ?_
    rw [← hlist]
    exact hpc

theorem SyncInv.stepWorks {l : WqStep} (h : SyncInv c) (hs : c.stepWorks l = some c') : SyncInv c' := by
  obtain ⟨hbusy, hs⟩ := Option.ite_none_left_eq_some.mp hs
  obtain ⟨works, hworks, rfl⟩ := Option.map_eq_some_iff.mp hs
  -- an item that was not submitted again stays out of the queue
  have hclear : ∀ t work, (c.pc t).work = some work → (c.again t = false → c.works.Clear work) →
      (c.again t || ((c.pc t).work = l.submits ∧ works.submissions ≠ c.works.submissions)) = false →
      c.again t = false ∧ works.Clear work ∧
        (works.queue.work_current = some work → c.works.queue.work_current = some work) := by
    intro t work hpc hold ha
    obtain ⟨ha, hnew⟩ := Bool.or_eq_false_iff.mp ha
    refine ⟨ha, (hold ha).step hworks fun hl => ?_⟩
    by_contra hne
    exact absurd ⟨hpc.trans hl.symm, hne⟩ (of_decide_eq_false hnew)
  have hpcwork : ∀ {t work}, c.pc t = .takes work ∨ c.pc t = .waits work ∨ c.pc t = .cancelled work →
      (c.pc t).work = some work := by
    rintro t work (hpc | hpc | hpc)
    all_goals
      rw [hpc]
      rfl
  have hworker : (l = .work ∧ c.works.queue.work_current = none) ∨
      (l = .done ∧ works.queue.work_current = none) ∨
      (l ≠ .done ∧ works.queue.work_current = c.works.queue.work_current) := by
    by_cases hwork : l = .work
    · subst hwork
      exact .inl ⟨rfl, (Option.ite_none_right_eq_some.mp hworks).1.2⟩
    by_cases hdone : l = .done
    · subst hdone
      obtain ⟨-, hworks⟩ := Option.ite_none_right_eq_some.mp hworks
      obtain rfl := Option.some.inj hworks
      exact .inr (.inl ⟨rfl, rfl⟩)
    exact .inr (.inr ⟨hdone, WqSystem.current_kept hworks hwork hdone⟩)
  refine ⟨WqSystem.sane_step h.sane hworks, h.inv, h.value, h.listed, fun hne => ?_, fun hcomp => ?_,
    fun t work hpc ha => ?_, fun t work hpc ha => ?_, h.returned⟩
  · rcases h.due hne with hcur | hcomp
    · rcases hworker with ⟨-, hnone⟩ | ⟨hdone, -⟩ | ⟨-, hkept⟩
      · exact absurd hnone hcur
      · exact .inr (by simp [hdone])
      · exact .inl (by rw [hkept]; exact hcur)
    · exact .inr (by simp [hcomp])
  · have hcomp : c.completing = true ∨ l = .done := by simpa using hcomp
    rcases hworker with ⟨hwork, -⟩ | ⟨-, hnone⟩ | ⟨hdone, hkept⟩
    · subst hwork
      exact absurd ⟨rfl, hcomp.resolve_right (by decide)⟩ hbusy
    · exact hnone
    · exact hkept.trans (h.idle (hcomp.resolve_right hdone))
  · exact (hclear t work (hpcwork hpc) (h.clear t work hpc) ha).2.1
  · have hpc' : c.pc t = .takes work ∨ c.pc t = .waits work ∨ c.pc t = .cancelled work := by
      rcases hpc with ⟨hpc, -⟩ | hpc
      · exact .inr (.inl hpc)
      · exact .inr (.inr hpc)
    obtain ⟨ha, -, hcur⟩ := hclear t work (hpcwork hpc') (h.clear t work hpc') ha
    exact fun hc => h.ended t work hpc ha (hcur hc)

theorem SyncInv.complete (h : SyncInv c) (hs : c.complete = some c') : SyncInv c' := by
  obtain ⟨hcomp, hs⟩ := Option.ite_none_right_eq_some.mp hs
  obtain ⟨⟨os, sem, err⟩, hr, hs⟩ := Option.bind_eq_some_iff.mp hs
  obtain rfl := Option.some.inj hs
  obtain ⟨hinv, hsem, hlist, -⟩ := (completion_returns h.value _ h.inv rfl).post hr
  obtain rfl : sem = c.sem := hsem
  have hidle := h.idle hcomp
  refine ⟨h.sane, hinv, h.value, fun t ht => ?_, fun hne => absurd hlist hne, fun _ => hidle, h.clear,
    fun t work _ _ hc => ?_, h.returned⟩
  · rw [suspended, hlist] at ht
    cases ht
  · rw [hidle] at hc
    cases hc

theorem SyncInv.check (h : SyncInv c) (hheard : c.Heard (.check t work)) (hs : c.check t work = some c') :
    SyncInv c' := by
  obtain ⟨⟨-, hidle⟩, hs⟩ := Option.ite_none_right_eq_some.mp hs
  obtain rfl := Option.some.inj hs
  refine ⟨h.sane, h.inv, h.value, fun u hu => ?_, h.due, h.idle, fun u w hpc ha => ?_, fun u w hpc ha => ?_,
    h.returned⟩
  · obtain ⟨w, hw⟩ := h.listed u hu
    have hut : u ≠ t := by
      rintro rfl
      exact absurd (hw.symm.trans hidle) (by simp)
    exact ⟨w, (Function.update_of_ne hut ..).trans hw⟩
  · by_cases hut : u = t
    · subst hut
      simp only [Function.update_self] at hpc
      split at hpc
      · next hcur =>
        simp only [SyncPc.takes.injEq, reduceCtorEq, or_false] at hpc
        exact hpc ▸ hheard hcur
      · simp at hpc
    · simp only [Function.update_of_ne hut] at hpc ha
      exact h.clear u w hpc ha
  · by_cases hut : u = t
    · subst hut
      simp only [Function.update_self] at hpc
      split at hpc <;> simp at hpc
    · simp only [Function.update_of_ne hut] at hpc ha
      exact h.ended u w hpc ha

theorem SyncInv.take (h : SyncInv c) (hheard : c.Heard (.take t)) (hs : c.take t = some c') :
    SyncInv c' := by
  unfold SyncSystem.take at hs
  split at hs
  case h_2 => cases hs
  next work hpct =>
  obtain ⟨hrun, hs⟩ := Option.ite_none_right_eq_some.mp hs
  obtain ⟨⟨os, sem, outcome⟩, htake, hs⟩ := Option.bind_eq_some_iff.mp hs
  obtain rfl := Option.some.inj hs
  rw [Semaphore.rt_sem_take, if_neg (by simp [h.value]), if_neg (by decide)] at htake
  obtain ⟨u, hcur, htake⟩ := Option.bind_eq_some_iff.mp htake
  obtain rfl := Option.some.inj (hrun.1.symm.trans hcur)
  obtain ⟨os', hwait, htake⟩ := Option.bind_eq_some_iff.mp htake
  cases htake
  have hw := waitOn_waits h.inv hrun.2 hwait
  have hlist : ∀ u, u ∈ os.suspend_thread c.sem.suspend_thread ↔ u ∈ c.suspended ∨ u = t := by
    intro u
    rw [hw.mem]
    simp [suspended]
  refine ⟨h.sane, hw.inv, h.value, fun u hu => ?_, fun _ => hheard, h.idle, fun u w hpc ha => ?_,
    fun u w hpc ha => ?_, h.returned⟩
  · by_cases hut : u = t
    · exact ⟨work, hut ▸ Function.update_self ..⟩
    · obtain ⟨w, hw⟩ := h.listed u (((hlist u).mp hu).resolve_right hut)
      exact ⟨w, (Function.update_of_ne hut ..).trans hw⟩
  · by_cases hut : u = t
    · subst hut
      simp only [setPc, Function.update_self, SyncPc.waits.injEq, reduceCtorEq, false_or, or_false] at hpc
      exact h.clear u w (.inl (hpct.trans (by rw [hpc]))) ha
    · simp only [setPc, Function.update_of_ne hut] at hpc
      exact h.clear u w hpc ha
  · by_cases hut : u = t
    · subst hut
      simp only [setPc, Function.update_self, reduceCtorEq, or_false] at hpc
      exact absurd ((hlist u).mpr (.inr rfl)) hpc.2
    · simp only [setPc, Function.update_of_ne hut] at hpc
      refine h.ended u w (hpc.imp_left fun hpc => ⟨hpc.1, fun hu => hpc.2 ?_⟩) ha
      exact (hlist u).mpr (.inl hu)

theorem SyncInv.cancel (h : SyncInv c) (hheard : c.Heard (.cancel t)) (hs : c.cancel t = some c') :
    SyncInv c' := by
  unfold SyncSystem.cancel at hs
  split at hs
  case h_2 => cases hs
  next work hpct =>
  obtain ⟨hrun, hs⟩ := Option.ite_none_right_eq_some.mp hs
  obtain ⟨works, hworks, rfl⟩ := Option.map_eq_some_iff.mp hs
  obtain ⟨hself, hcurrent⟩ := WqSystem.cancel_clear h.sane hworks
  refine ⟨WqSystem.sane_step h.sane hworks, h.inv, h.value, fun u hu => ?_, fun hne => ?_, fun hcomp => ?_,
    fun u w hpc ha => ?_, fun u w hpc ha => ?_, h.returned⟩
  · obtain ⟨w, hw⟩ := h.listed u hu
    have hut : u ≠ t := by
      rintro rfl
      exact absurd (hw.symm.trans hpct) (by simp)
    exact ⟨w, (Function.update_of_ne hut ..).trans hw⟩
  · rw [hcurrent]
    exact h.due hne
  · exact hcurrent.trans (h.idle hcomp)
  · by_cases hut : u = t
    · subst hut
      simp only [setPc, Function.update_self, SyncPc.cancelled.injEq, reduceCtorEq, false_or] at hpc
      exact hpc ▸ hself
    · simp only [setPc, Function.update_of_ne hut] at hpc
      exact ((h.clear u w hpc ha).step hworks fun hl => by cases hl).1
  · rw [hcurrent]
    by_cases hut : u = t
    · subst hut
      simp only [setPc, Function.update_self, SyncPc.cancelled.injEq, reduceCtorEq, false_and, false_or] at hpc
      have hnot : (c.pc u).work ≠ c.works.queue.work_current := hheard
      rw [hpct] at hnot
      exact hpc ▸ hnot.symm
    · simp only [setPc, Function.update_of_ne hut] at hpc
      exact h.ended u w hpc ha

/-- The caller has returned. -/
theorem SyncInv.returns {r : SyncReturn} (h : SyncInv c) (hnot : t ∉ c.suspended)
    (hr : r.again = false → r.queued = false ∧ r.executed = false) :
    SyncInv { c.setPc t .idle with returned := c.returned ++ [r] } := by
  refine ⟨h.sane, h.inv, h.value, fun u hu => ?_, h.due, h.idle, fun u w hpc ha => ?_, fun u w hpc ha => ?_,
    fun r' hr' => ?_⟩
  · have hut : u ≠ t := by
      rintro rfl
      exact hnot hu
    obtain ⟨w, hw⟩ := h.listed u hu
    exact ⟨w, (Function.update_of_ne hut ..).trans hw⟩
  · by_cases hut : u = t
    · subst hut
      simp [setPc] at hpc
    · simp only [setPc, Function.update_of_ne hut] at hpc
      exact h.clear u w hpc ha
  · by_cases hut : u = t
    · subst hut
      simp [setPc] at hpc
    · simp only [setPc, Function.update_of_ne hut] at hpc
      exact h.ended u w hpc ha
  · rcases List.mem_append.mp hr' with hr' | hr'
    · exact h.returned r' hr'
    · rw [List.mem_singleton.mp hr']
      exact hr

theorem SyncInv.ret (h : SyncInv c) (hs : c.ret t = some c') : SyncInv c' := by
  have hreturn : ∀ work, c.pc t = .waits work ∨ c.pc t = .cancelled work → Runs c.os t →
      SyncInv { c.setPc t .idle with
        returned := c.returned ++ [⟨work, c.again t, c.works.Queued work,
          c.works.queue.work_current = some work⟩] } := by
    intro work hpc hrun
    have hnot : t ∉ c.suspended := hrun.not_waiting h.inv _
    refine h.returns hnot fun ha => ⟨?_, ?_⟩
    · exact decide_eq_false (h.clear t work (.inr hpc) ha).1
    · exact decide_eq_false (h.ended t work (hpc.imp_left fun hpc => ⟨hpc, hnot⟩) ha)
  unfold SyncSystem.ret at hs
  split at hs
  · next work hpct =>
    obtain ⟨hrun, hs⟩ := Option.ite_none_right_eq_some.mp hs
    obtain rfl := Option.some.inj hs
    exact hreturn work (.inl hpct) hrun
  · next work hpct =>
    obtain ⟨hrun, hs⟩ := Option.ite_none_right_eq_some.mp hs
    obtain rfl := Option.some.inj hs
    exact hreturn work (.inr hpct) hrun
  · cases hs

theorem SyncInv.step {l : SyncStep} (h : SyncInv c) (hheard : c.Heard l) (hs : c.step l = some c') :
    SyncInv c' := by
  cases l with
  | works l => exact h.stepWorks hs
  | complete => exact h.complete hs
  | check t work => exact h.check hheard hs
  | take t => exact h.take hheard hs
  | cancel t => exact h.cancel hheard hs
  | ret t => exact h.ret hs
  | schedule =>
    obtain ⟨os, hos, rfl⟩ := Option.map_eq_some_iff.mp hs
    exact h.elsewhere (rt_schedule_inv h.inv hos) ((rt_schedule_waits h.inv hos).1 _)
  | other os => cases hs

/-- In every run in which no item is being executed and queued too when its cancellation begins, the
completion is still to come when a caller takes the semaphore, and the worker has not begun with an item
when it is cancelled, nobody waits in vain, and what is cancelled is out of the queue. -/
theorem cancel_work_sync_ends {c : SyncSystem} (hr : (syncMachine.restrict Heard).Reachable c) :
    SyncContract c := by
  have hinv : SyncInv c := by
    apply hr.invariant
    · exact fun c h => h.syncInv
    · rintro c l c' - h ⟨hheard, hs | ⟨os, -, rfl, he⟩⟩
      · exact h.step hheard hs
      · exact h.elsewhere he.inv (he.suspend _ rfl)
  exact hinv.contract

def newSync (os : Rtos) (works : WqSystem) : SyncSystem where
  works := works
  completing := false
  os := os
  sem := { value := 0, suspend_thread := 0, flag := .fifo }
  pc _ := .idle
  again _ := false
  returned := []

theorem newSync_fresh {os : Rtos} {works : WqSystem} (hos : startedThreads = some os)
    (hlist : os.suspend_thread 0 = []) (hworks : works.Fresh) : (newSync os works).Fresh :=
  ⟨hworks, rfl, startedThreads_inv hos, rfl, hlist, fun _ => rfl, rfl⟩

instance (c : SyncSystem) (l : SyncStep) : Decidable (c.Heard l) :=
  match l with
  | .check _ work =>
    inferInstanceAs (Decidable (c.works.queue.work_current = some work → c.works.Clear work))
  | .take _ => inferInstanceAs (Decidable (c.works.queue.work_current ≠ none ∨ c.completing = true))
  | .cancel t => inferInstanceAs (Decidable ((c.pc t).work ≠ c.works.queue.work_current))
  | .works _ | .complete | .ret _ | .schedule | .other _ => inferInstanceAs (Decidable True)

/-- The steps of the runs in which no cancellation comes too late. -/
def heardStep (c : SyncSystem) (l : SyncStep) : Option SyncSystem :=
  if c.Heard l then c.step l else none

/-- Thread 1 waits for the end of item 5, and cancels item 6, which is in the list. -/
def twoCancels : List SyncStep :=
  [.works (.submit 5 0), .works (.submit 6 0), .works .work, .check 1 5, .take 1, .schedule, .works .done,
    .complete, .schedule, .ret 1, .check 1 6, .cancel 1, .ret 1]

theorem cancel_work_sync_ends_twice : ∃ os, startedThreads = some os ∧
    ∃ c, Machine.runs heardStep (newSync os newWorkqueue) twoCancels = some c ∧
      c.returned = [⟨5, false, false, false⟩, ⟨6, false, false, false⟩] ∧ SyncContract c := by
  have hrun : ∃ os, startedThreads = some os ∧ os.suspend_thread 0 = [] ∧
      ∃ c, Machine.runs heardStep (newSync os newWorkqueue) twoCancels = some c ∧
        c.returned = [⟨5, false, false, false⟩, ⟨6, false, false, false⟩] := by
    decide +kernel
  obtain ⟨os, hos, hlist, c, hc, hreturned⟩ := hrun
  refine ⟨os, hos, c, hc, hreturned, cancel_work_sync_ends ?_⟩
  refine (Machine.Reachable.start (newSync_fresh hos hlist newWorkqueue_fresh)).runs
    (fun c l c' hs => ?_) hc
  obtain ⟨hheard, hs⟩ := Option.ite_none_right_eq_some.mp hs
  exact ⟨hheard, Or.inl hs⟩

/-! ### A completion that comes too early -/

/-- The item that a step submits. -/
def submits : SyncStep → Option WorkId
  | .works l => l.submits
  | _ => none

/-- An item that nobody submits stays out of the queue. -/
theorem clear_step {l : SyncStep} (h : c.works.Clear work) (hl : submits l ≠ some work)
    (hs : c.step l = some c') : c'.works.Clear work := by
  cases l with
  | works l =>
    obtain ⟨-, hs⟩ := Option.ite_none_left_eq_some.mp hs
    obtain ⟨works, hworks, rfl⟩ := Option.map_eq_some_iff.mp hs
    exact (h.step hworks fun hw => absurd hw hl).1
  | complete =>
    obtain ⟨-, hs⟩ := Option.ite_none_right_eq_some.mp hs
    obtain ⟨r, -, hs⟩ := Option.bind_eq_some_iff.mp hs
    obtain rfl := Option.some.inj hs
    exact h
  | check t w =>
    obtain ⟨-, hs⟩ := Option.ite_none_right_eq_some.mp hs
    obtain rfl := Option.some.inj hs
    exact h
  | take t =>
    simp only [step, take] at hs
    split at hs
    · obtain ⟨-, hs⟩ := Option.ite_none_right_eq_some.mp hs
      obtain ⟨r, -, hs⟩ := Option.bind_eq_some_iff.mp hs
      obtain rfl := Option.some.inj hs
      exact h
    · cases hs
  | cancel t =>
    simp only [step, cancel] at hs
    split at hs
    · obtain ⟨-, hs⟩ := Option.ite_none_right_eq_some.mp hs
      obtain ⟨works, hworks, rfl⟩ := Option.map_eq_some_iff.mp hs
      exact (h.step hworks fun hw => by cases hw).1
    · cases hs
  | ret t =>
    simp only [step, ret] at hs
    split at hs
    · obtain ⟨-, hs⟩ := Option.ite_none_right_eq_some.mp hs
      obtain rfl := Option.some.inj hs
      exact h
    · obtain ⟨-, hs⟩ := Option.ite_none_right_eq_some.mp hs
      obtain rfl := Option.some.inj hs
      exact h
    · cases hs
  | schedule =>
    obtain ⟨os, -, rfl⟩ := Option.map_eq_some_iff.mp hs
    exact h
  | other os => cases hs

theorem clear_runs {ls : List SyncStep} (h : c.works.Clear work) (hl : ∀ l ∈ ls, submits l ≠ some work)
    (hs : Machine.runs step c ls = some c') : c'.works.Clear work := by
  induction ls generalizing c with
  | nil => exact Option.some.inj hs ▸ h
  | cons l ls ih =>
    obtain ⟨c1, h1, hs⟩ := Option.bind_eq_some_iff.mp hs
    exact ih (clear_step h (hl l List.mem_cons_self) h1)
      (fun l hm => hl l (List.mem_cons_of_mem _ hm)) hs

/-- Item 5 ends, and its completion is acknowledged, between the test of thread 1 and its take. -/
def earlyCompletion : List SyncStep :=
  [.works (.submit 5 0), .works .work, .check 1 5, .works .done, .complete, .works .work, .take 1]

theorem earlyCompletion_submits (hv : work ≠ 5) : ∀ l ∈ earlyCompletion, submits l ≠ some work := by
  have hv : some 5 ≠ some work := fun h => hv (Option.some.inj h).symm
  simpa [earlyCompletion, submits, WqStep.submits] using hv

theorem cancel_work_sync_ends_fails : ¬∀ c, syncMachine.Reachable c → SyncContract c := by
  have hrun : ∃ os, startedThreads = some os ∧ os.suspend_thread 0 = [] ∧
      ∃ c, Machine.runs step (newSync os newWorkqueue) earlyCompletion = some c ∧
        c.pc 1 = .waits 5 ∧ c.suspended = [1] ∧ c.works.queue.work_current = none ∧
        c.completing = false ∧ c.works.Clear 5 := by
    decide +kernel
  obtain ⟨os, hos, hlist, c, hc, hpc, hsuspended, hcurrent, hcompleting, hclear⟩ := hrun
  intro h
  have hfresh := newSync_fresh hos hlist newWorkqueue_fresh
  have hr : syncMachine.Reachable c :=
    (Machine.Reachable.start hfresh).runs (fun _ _ _ hs => Or.inl hs) hc
  have hnone : ∀ work, c.works.Clear work := by
    intro work
    by_cases hv : work = 5
    · exact hv ▸ hclear
    · refine clear_runs ⟨fun hq => ?_, ?_⟩ (earlyCompletion_submits hv) hc
      · rcases hq with hq | hq
        · rw [hfresh.works.work_list] at hq
          cases hq
        · rw [hfresh.works.delayed_list] at hq
          cases hq
      · rw [hfresh.works.works]
        rfl
  rcases (h c hr).suspended 1 5 hpc (by simp [hsuspended]) with hd | hd | ⟨work, hd⟩
  · exact hd hcurrent
  · rw [hcompleting] at hd
    cases hd
  · rcases hd with hd | hd
    · exact (hnone work).1 (.inl hd)
    · exact hd.1 (hnone work).2

end SyncSystem

end Ab32Vg1.Drivers
