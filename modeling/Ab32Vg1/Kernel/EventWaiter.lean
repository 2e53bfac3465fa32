import Ab32Vg1.Kernel.EventRun

/-! An event that one thread uses: it waits for any of some bits, and consumes those that it was
waiting for. -/

namespace Ab32Vg1.Kernel

open ProofKit Rtos

namespace Event

variable {ev : Event} {s : Rtos} {t : Tid} {mask set : BitVec 32} {timeout : Int}

def anyClear : BitVec 8 := RT_EVENT_FLAG_OR ||| RT_EVENT_FLAG_CLEAR

theorem rt_event_recv_any (hrun : Runs s t) (hmask : mask ≠ 0) :
    ev.rt_event_recv s mask anyClear timeout =
      ev.recvChecked (s.setThread t fun th => { th with error := RT_EOK }) t mask anyClear timeout
        (if ev.set &&& mask ≠ 0 then RT_EOK else -RT_ERROR) := by
  unfold rt_event_recv
  rw [if_neg hmask, hrun.1]
  rfl

variable (t mask) in
theorem setEvent_inv (h : Inv s) :
    Inv (s.setThread t fun th => { th with event_set := mask, event_info := anyClear }) :=
  SchedInv.touch h rfl rfl rfl rfl rfl (h.thread t (by simp)).timer

/-- What is there is taken at once. -/
theorem recv_takes {r : Rtos × Event × Outcome × Option (BitVec 32)} (h : Inv s) (hrun : Runs s t)
    (hset : ev.set &&& mask ≠ 0)
    (hs : ev.rt_event_recv s mask anyClear timeout = some r) :
    Inv r.1 ∧ (∀ l, r.1.suspend_thread l = s.suspend_thread l) ∧
      r.2 = ({ ev with set := ev.set &&& ~~~mask }, .returned RT_EOK, some (ev.set &&& mask)) := by
  have hmask : mask ≠ 0 := by
    rintro rfl
    exact hset (by simp)
  rw [rt_event_recv_any hrun hmask, if_pos hset] at hs
  obtain rfl := Option.some.inj hs
  have hinv := setEvent_inv t (ev.set &&& mask) (resetError_inv (t := t) h RT_EOK)
  refine ⟨hinv, fun l => rfl, ?_⟩
  simp only [setThread_self]
  rfl

/-- The thread begins to wait when nothing is there. -/
structure BeginsToWait (s s' : Rtos) (l : Nat) (t : Tid) (mask : BitVec 32) : Prop where
  inv : Inv s'
  mem : ∀ u, u ∈ s'.suspend_thread l ↔ u ∈ s.suspend_thread l ∨ u = t
  error : (s'.threads t).error = RT_EOK
  event_set : (s'.threads t).event_set = mask
  event_info : (s'.threads t).event_info = anyClear

theorem recv_waits {r : Rtos × Event × Outcome × Option (BitVec 32)} (h : Inv s) (hrun : Runs s t)
    (hmask : mask ≠ 0) (htime : timeout ≠ 0) (hset : ev.set &&& mask = 0)
    (hs : ev.rt_event_recv s mask anyClear timeout = some r) :
    BeginsToWait s r.1 ev.suspend_thread t mask ∧ r.2 = (ev, .suspended, none) := by
  rw [rt_event_recv_any hrun hmask, if_neg (not_not.mpr hset)] at hs
  unfold recvChecked at hs
  rw [if_neg (by decide), if_neg htime] at hs
  obtain ⟨os, hwait, hs⟩ := Option.bind_eq_some_iff.mp hs
  obtain rfl := Option.some.inj hs
  have hinv := setEvent_inv t mask (resetError_inv (t := t) h RT_EOK)
  have hw := suspendOn_waits hinv (by simp [hrun.2]) (by simp) hwait
  refine ⟨⟨hw.inv, fun u => ?_, hw.error, ?_, ?_⟩, rfl⟩
  · rw [hw.mem]
    simp
  · rw [hw.event_set, setThread_self]
  · rw [hw.event_info, setThread_self]

/-- A send that nobody waits for stays in the event. -/
theorem send_stays (hnobody : s.suspend_thread ev.suspend_thread = []) (hset : set ≠ 0) :
    ev.rt_event_send s set = some ⟨s, { ev with set := ev.set ||| set }, RT_EOK, false, []⟩ := by
  unfold rt_event_send
  rw [if_neg hset]
  dsimp only
  rw [hnobody]
  rfl

/-- A send wakes the thread, and nothing that it waits for stays in the event. -/
theorem send_wakes {r : EventSent} (h : Inv s) (hlist : s.suspend_thread ev.suspend_thread = [t])
    (hmask : (s.threads t).event_set = mask) (hinfo : (s.threads t).event_info = anyClear)
    (hset : set &&& mask ≠ 0) (hs : ev.rt_event_send s set = some r) :
    Inv r.os ∧ r.os.suspend_thread ev.suspend_thread = [] ∧
      (r.os.threads t).error = (s.threads t).error ∧
      (r.os.threads t).thread_timer.activated = false ∧
      r.event.suspend_thread = ev.suspend_thread ∧ r.event.set &&& mask = 0 ∧ r.resumed ≠ [] := by
  have hne : set ≠ 0 := by
    rintro rfl
    exact hset (by simp)
  have hst := (h.thread t (by simp)).waiting ev.suspend_thread (by simp [hlist])
  have hmatch : mask &&& (ev.set ||| set) ≠ 0 := by
    intro hzero
    apply hset
    ext i
    have := congrArg (fun b => b.getLsbD i) hzero
    simp at this
    grind
  unfold rt_event_send at hs
  rw [if_neg hne] at hs
  dsimp only at hs
  rw [hlist] at hs
  simp only [sendLoop, hinfo, hmask] at hs
  rw [if_neg (by decide), if_pos (by decide), if_pos hmatch] at hs
  let s1 := s.setThread t fun th => { th with event_set := th.event_set &&& (ev.set ||| set) }
  have hinv1 : Inv s1 := SchedInv.touch h rfl rfl rfl rfl rfl (h.thread t (by simp)).timer
  have hinfo1 : (s1.threads t).event_info = anyClear := by rw [setThread_self]; exact hinfo
  have hset1 : (s1.threads t).event_set = mask &&& (ev.set ||| set) := by
    rw [setThread_self]
    simp only [hmask]
  have hst1 : (s1.threads t).stat = .SUSPEND := by rw [setThread_self]; exact hst
  have hresume : Event.resume { ev with set := ev.set ||| set } s1 t = some (wake s1 t,
      { ev with set := (ev.set ||| set) &&& ~~~(mask &&& (ev.set ||| set)) }) := by
    unfold Event.resume
    dsimp only
    rw [hinfo1, hset1,
      rt_thread_resume_eq ((hinv1.thread t (by simp)).object (by simp [hst1])) hst1]
    rfl
  simp only [Option.bind_eq_bind] at hs
  rw [hresume, Option.bind_some, Option.bind_some] at hs
  obtain rfl := Option.some.inj hs
  refine ⟨wake_inv hinv1 hst1, ?_, ?_, by simp [wake_threads_self], rfl, ?_, by simp⟩
  · rw [wake_suspend]
    simp [s1, hlist]
  · simp [wake_threads_self, s1]
  · ext i
    simp
    grind

theorem recvResumed_err : (Event.recvResumed s t).1 = (s.threads t).error := by
  unfold Event.recvResumed
  dsimp only
  by_cases herr : (s.threads t).error = RT_EOK
  · rw [if_neg (not_not.mpr herr)]
  · rw [if_pos herr]

end Event

end Ab32Vg1.Kernel
