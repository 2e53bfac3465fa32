import Ab32Vg1.Kernel.SchedulerRun
import Ab32Vg1.ProofKit.Transition

/-! What the operations of the kernel do to the threads that wait on an IPC object: who is in the
lists of the object, and the fields of a thread that a waiting thread reads when it goes on. -/

namespace Ab32Vg1.Kernel

open Rtos

/-- The fields of a waiting thread that only the object and the timer of the thread change; no
timer starts by itself. -/
structure Kept (th th' : Thread) : Prop where
  error : th'.error = th.error
  event_set : th'.event_set = th.event_set
  event_info : th'.event_info = th.event_info
  timer : th'.thread_timer.activated = true → th.thread_timer.activated = true

theorem Kept.refl (th : Thread) : Kept th th := ⟨rfl, rfl, rfl, fun h => h⟩

theorem Kept.trans {th th' th'' : Thread} (h : Kept th th') (h' : Kept th' th'') : Kept th th'' :=
  ⟨h'.error.trans h.error, h'.event_set.trans h.event_set, h'.event_info.trans h.event_info,
    fun ht => h.timer (h'.timer ht)⟩

/-- What the rest of the system may do while the threads of `busy` use the object that owns the
lists `ls`: anything that leaves these lists and the waiting threads alone. -/
structure Elsewhere (ls : Nat → Prop) (busy : Tid → Prop) (s s' : Rtos) : Prop where
  inv : Inv s'
  suspend : ∀ l, ls l → s'.suspend_thread l = s.suspend_thread l
  kept : ∀ t, busy t → Kept (s.threads t) (s'.threads t)

/-- The thread goes on with its own code. -/
def Runs (s : Rtos) (t : Tid) : Prop :=
  s.rt_current_thread = some t ∧ (s.threads t).stat = .RUNNING

instance (s : Rtos) (t : Tid) : Decidable (Runs s t) := inferInstanceAs (Decidable (_ ∧ _))

/-- A call of an operation with a waiting time: by the running thread, when it is not inside such an
operation, or by an interrupt handler, which cannot wait. -/
def MayCall (s : Rtos) (busy : Tid → Bool) (time : Int) : Option Tid → Prop
  | some t => Runs s t ∧ busy t = false
  | none => time = 0

instance (s : Rtos) (busy : Tid → Bool) (time : Int) (caller : Option Tid) :
    Decidable (MayCall s busy time caller) :=
  match caller with
  | some _ => inferInstanceAs (Decidable (_ ∧ _))
  | none => inferInstanceAs (Decidable (_ = _))

section

variable {s s' s1 : Rtos} {t u : Tid}

/-- A thread in a list is suspended and does not run. -/
theorem Inv.not_waiting (h : Inv s) (hst : (s.threads t).stat ≠ .SUSPEND) (l : Nat) :
    t ∉ s.suspend_thread l :=
  fun hl => hst ((h.thread t (by simp)).waiting l hl)

theorem Runs.not_waiting (hr : Runs s t) (h : Inv s) (l : Nat) : t ∉ s.suspend_thread l :=
  h.not_waiting (by simp [hr.2]) l

theorem filter_of_not_mem {us : List Tid} (h : t ∉ us) : us.filter (· ≠ t) = us := by
  apply List.filter_eq_self.mpr
  intro u hu
  have hne : u ≠ t := fun heq => h (heq ▸ hu)
  simpa using hne

theorem setThread_kept {f : Thread → Thread} (hf : Kept (s.threads t) (f (s.threads t))) (u : Tid) :
    Kept (s.threads u) ((s.setThread t f).threads u) := by
  by_cases hut : u = t
  · subst hut
    rw [setThread_self]
    exact hf
  · rw [setThread_of_ne s t f hut]
    exact Kept.refl _

theorem insert_kept : ∀ u, Kept (s.threads u) ((s.rt_schedule_insert_thread t).threads u) := by
  intro u
  by_cases hut : u = t
  · subst hut
    rw [insert_threads_self]
    exact ⟨rfl, rfl, rfl, fun h => h⟩
  · rw [insert_threads_of_ne s t hut]
    exact Kept.refl _

/-- Only the state and the yield flag of the thread change. -/
theorem setStat_kept (stat : Stat) (u : Tid) :
    Kept (s.threads u) ((s.setThread t fun th => { th with stat := stat }).threads u) :=
  setThread_kept ⟨rfl, rfl, rfl, fun h => h⟩ u

theorem switchTo_kept {from_thread to_thread : Tid} {p : Nat} {need : Bool} (u : Tid) :
    Kept (s.threads u) ((s.switchTo from_thread to_thread p need).threads u) := by
  let s1 : Rtos := { s with rt_current_priority := p % 256, rt_current_thread := some to_thread }
  let s2 : Rtos := if need then s1.rt_schedule_insert_thread from_thread else s1
  have h12 : Kept (s.threads u) (s2.threads u) := by
    cases need with
    | false => exact Kept.refl _
    | true => exact insert_kept (s := s1) u
  have h23 := setStat_kept (s := s2.rt_schedule_remove_thread to_thread) (t := to_thread) .RUNNING u
  exact h12.trans h23

theorem switchTo_suspend {from_thread to_thread : Tid} {p : Nat} {need : Bool} {l : Nat}
    (hto : to_thread ∉ s.suspend_thread l) :
    (s.switchTo from_thread to_thread p need).suspend_thread l = s.suspend_thread l := by
  unfold switchTo contextSwitch
  cases need
  · exact filter_of_not_mem hto
  · simp only [if_true, setThread_suspend, remove_suspend, insert_suspend]
    exact filter_of_not_mem hto

/-- `rt_schedule` only changes which thread runs. -/
theorem rt_schedule_waits (h : Inv s) (hs : s.rt_schedule = some s') :
    (∀ l, s'.suspend_thread l = s.suspend_thread l) ∧
      ∀ u, Kept (s.threads u) (s'.threads u) := by
  rcases rt_schedule_cases hs with ⟨rfl, -⟩ | ⟨next, p, cur, -, hgroup, hnext, hcur, hcase⟩
  · exact ⟨fun l => rfl, fun u => Kept.refl _⟩
  obtain ⟨next', rest, p', hp', hcons, hget, -⟩ := h.highest hgroup
  obtain ⟨rfl, rfl⟩ := Prod.mk.inj (Option.some.inj (hnext.symm.trans hget))
  have hready := ((h.thread next (by simp)).ready p (by rw [hcons]; exact List.mem_cons_self)).1
  have hne : next ≠ cur := by
    rintro rfl
    exact ((h.thread next (by simp)).current hcur).1 hready
  have hnot : ∀ l, next ∉ s.suspend_thread l := h.not_waiting (by simp [hready])
  have hyield : ∀ u, Kept (s.threads u)
      ((s.setThread cur fun th => { th with stat_yield := false }).threads u) :=
    setThread_kept ⟨rfl, rfl, rfl, fun h => h⟩
  rcases hcase with ⟨hrun, -, rfl⟩ | ⟨hrun, -, rfl⟩ | ⟨-, rfl⟩
  · rw [finishSchedule, if_neg (by simp)]
    refine ⟨fun l => ?_, fun u => ?_⟩
    · exact filter_of_not_mem (h.not_waiting (by simp [hrun]) l)
    · let s1 := (s.setThread cur fun th => { th with stat_yield := false }).rt_schedule_remove_thread cur
      exact (hyield u).trans (setStat_kept (s := s1) .RUNNING u)
  · rw [finishSchedule, if_pos hne]
    exact ⟨fun l => switchTo_suspend (hnot l), fun u => (hyield u).trans (switchTo_kept u)⟩
  · rw [finishSchedule, if_pos hne]
    exact ⟨fun l => switchTo_suspend (hnot l), switchTo_kept⟩

theorem rt_schedule_elsewhere {ls : Nat → Prop} {busy : Tid → Prop} (h : Inv s)
    (hs : s.rt_schedule = some s') : Elsewhere ls busy s s' := by
  obtain ⟨hl, ht⟩ := rt_schedule_waits h hs
  exact ⟨rt_schedule_inv h hs, fun l _ => hl l, fun t _ => ht t⟩

/-! ### Waking the first waiting thread -/

/-- The thread at the head of a list is woken. -/
structure Woken (s s' : Rtos) (l : Nat) (t : Tid) : Prop where
  inv : Inv s'
  suspend : ∀ l', s'.suspend_thread l' = if l' = l then (s.suspend_thread l).tail
    else s.suspend_thread l'
  kept : ∀ u, Kept (s.threads u) (s'.threads u)
  timer : (s'.threads t).thread_timer.activated = false

theorem wake_threads_self : (wake s t).threads t =
    { s.threads t with
      stat := if s.rt_current_thread = some t then .RUNNING else .READY
      thread_timer := { (s.threads t).thread_timer with activated := false } } := by
  unfold wake
  rw [insert_threads_self, rt_timer_stop, setThread_self]
  rfl

theorem wake_threads_of_ne (hut : u ≠ t) : (wake s t).threads u = s.threads u := by
  unfold wake
  rw [insert_threads_of_ne _ t hut]
  exact setThread_of_ne _ t _ hut

@[simp] theorem wake_suspend (l : Nat) :
    (wake s t).suspend_thread l = (s.suspend_thread l).filter (· ≠ t) := by
  simp [wake, rt_timer_stop]

theorem wake_kept (u : Tid) : Kept (s.threads u) ((wake s t).threads u) := by
  by_cases hut : u = t
  · subst hut
    rw [wake_threads_self]
    exact ⟨rfl, rfl, rfl, fun h => by cases h⟩
  · rw [wake_threads_of_ne hut]
    exact Kept.refl _

/-- The lists after a waiting thread has left. -/
theorem Inv.filter_suspend {l : Nat} (h : Inv s) (ht : t ∈ s.suspend_thread l) (l' : Nat) :
    (s.suspend_thread l').filter (· ≠ t) = if l' = l then (s.suspend_thread l).filter (· ≠ t)
      else s.suspend_thread l' := by
  by_cases hl : l' = l
  · rw [if_pos hl, hl]
  · rw [if_neg hl]
    exact filter_of_not_mem fun ht' => hl (h.suspend_unique t l' l ht' ht)

theorem filter_head {rest : List Tid} (h : (t :: rest).Nodup) :
    (t :: rest).filter (· ≠ t) = rest := by
  rw [List.filter_cons_of_neg (by simp)]
  exact filter_of_not_mem (List.nodup_cons.mp h).1

theorem rt_ipc_list_resume_woken {l : Nat} {rest : List Tid} (h : Inv s)
    (hl : s.suspend_thread l = t :: rest) :
    s.rt_ipc_list_resume l = some (wake s t) ∧ Woken s (wake s t) l t := by
  have hmem : t ∈ s.suspend_thread l := by rw [hl]; exact List.mem_cons_self
  have ht := h.thread t (by simp)
  have hst := ht.waiting l hmem
  refine ⟨?_, wake_inv h hst, fun l' => ?_, wake_kept, by simp [wake_threads_self]⟩
  · unfold rt_ipc_list_resume
    rw [hl]
    dsimp only
    rw [rt_thread_resume_eq (ht.object (by simp [hst])) hst]
    rfl
  · have hnd := h.suspend_nodup l
    rw [hl] at hnd
    rw [wake_suspend, h.filter_suspend hmem, hl, filter_head hnd, List.tail_cons]

/-! ### Beginning to wait -/

/-- The running thread begins to wait on a list. -/
structure Waits (s s' : Rtos) (l : Nat) (t : Tid) : Prop where
  inv : Inv s'
  mem : ∀ l' u, u ∈ s'.suspend_thread l' ↔ u ∈ s.suspend_thread l' ∨ l' = l ∧ u = t
  other : ∀ u, u ≠ t → s'.threads u = s.threads u
  error : (s'.threads t).error = RT_EOK
  event_set : (s'.threads t).event_set = (s.threads t).event_set
  event_info : (s'.threads t).event_info = (s.threads t).event_info

theorem putToSleep_of_ne (hut : u ≠ t) : (putToSleep s t).threads u = s.threads u := by
  unfold putToSleep rt_timer_stop
  rw [setThread_of_ne _ t _ hut, setThread_of_ne _ t _ hut]
  rfl

theorem waiting_waits {l : Nat} {flag : IpcFlag} (h : Inv s) (hrun : (s.threads t).stat = .RUNNING) :
    Waits s (waiting s l t flag) l t := by
  refine ⟨waiting_inv h (Or.inr hrun), fun l' u => ?_, fun u hut => ?_, by rw [waiting_self],
    by rw [waiting_self], by rw [waiting_self]⟩
  · rw [waiting, mem_insertWaiting]
    have hlist : (putToSleep (s.setThread t fun th => { th with error := RT_EOK }) t).suspend_thread
        l' = s.suspend_thread l' :=
      filter_of_not_mem (h.not_waiting (by simp [hrun]) l')
    rw [hlist]
  · exact (putToSleep_of_ne hut).trans (setThread_of_ne _ t _ hut)

theorem waitOn_waits {l : Nat} {flag : IpcFlag} {time : Int} (h : Inv s)
    (hrun : (s.threads t).stat = .RUNNING) (hs : s.waitOn l t flag time = some s') :
    Waits s s' l t := by
  have hw : Waits s (waiting s l t flag) l t := waiting_waits h hrun
  have hinv := waitOn_inv h (Or.inr hrun) hs
  rw [waitOn_eq h (Or.inr hrun)] at hs
  by_cases htime : 0 < time
  · rw [if_pos htime] at hs
    obtain ⟨-, hs⟩ := RT_ASSERT_bind_eq_some.mp hs
    obtain rfl := Option.some.inj hs
    refine ⟨hinv, hw.mem, fun u hut => ?_, ?_, ?_, ?_⟩
    · rw [setThread_of_ne _ t _ hut]
      exact hw.other u hut
    · simp [hw.error]
    · simp [hw.event_set]
    · simp [hw.event_info]
  · rw [if_neg htime] at hs
    obtain rfl := Option.some.inj hs
    exact hw

theorem setThread_eq_self {f : Thread → Thread} (hf : f (s.threads t) = s.threads t) :
    s.setThread t f = s := by
  unfold setThread
  rw [hf, Function.update_eq_self]

/-- The error of the thread is reset already. -/
theorem suspendOn_waits {l : Nat} {flag : IpcFlag} {time : Int} (h : Inv s)
    (hrun : (s.threads t).stat = .RUNNING) (herr : (s.threads t).error = RT_EOK)
    (hs : s.suspendOn l t flag time = some s') : Waits s s' l t := by
  have hself : (s.setThread t fun th => { th with error := RT_EOK }) = s :=
    setThread_eq_self (by rw [← herr])
  apply waitOn_waits h hrun
  unfold waitOn
  rw [hself]
  exact hs

/-! ### Timeouts -/

/-- A waiting thread is timed out. -/
structure TimedOut (s s' : Rtos) (t : Tid) : Prop where
  inv : Inv s'
  suspend : ∀ l, s'.suspend_thread l = (s.suspend_thread l).filter (· ≠ t)
  error : (s'.threads t).error = -RT_ETIMEOUT
  timer : (s'.threads t).thread_timer.activated = false
  event_set : (s'.threads t).event_set = (s.threads t).event_set
  event_info : (s'.threads t).event_info = (s.threads t).event_info
  other : ∀ u, u ≠ t → Kept (s.threads u) (s'.threads u)

theorem expire_timedOut (h : Inv s) (hs : (s.rt_timer_stop t).expire t = some s') :
    TimedOut s s' t := by
  have hstop : Inv (s.rt_timer_stop t) := SchedInv.touch h rfl rfl rfl rfl rfl (by simp)
  have hinv := expire_inv hstop (by simp [rt_timer_stop]) hs
  obtain ⟨-, hs⟩ := RT_ASSERT_bind_eq_some.mp hs
  obtain ⟨-, hs⟩ := RT_ASSERT_bind_eq_some.mp hs
  obtain rfl := Option.some.inj hs
  refine ⟨hinv, fun l => ?_, ?_, ?_, ?_, ?_, fun u hut => ?_⟩
  · simp [rt_timer_stop]
  · simp [insert_threads_self]
  · simp [insert_threads_self, rt_timer_stop]
  · simp [insert_threads_self, rt_timer_stop]
  · simp [insert_threads_self, rt_timer_stop]
  · rw [insert_threads_of_ne _ t hut, list_remove_threads, setThread_of_ne _ t _ hut, rt_timer_stop,
      setThread_of_ne _ t _ hut]
    exact Kept.refl _

theorem timerExpires_timedOut (h : Inv s) (hs : s.timerExpires t = some s') : TimedOut s s' t := by
  obtain ⟨s1, h1, hs⟩ := Option.bind_eq_some_iff.mp hs
  have hexp := expire_timedOut h h1
  obtain ⟨hl, ht⟩ := rt_schedule_waits hexp.inv hs
  refine ⟨rt_schedule_inv hexp.inv hs, fun l => (hl l).trans (hexp.suspend l),
    (ht t).error.trans hexp.error, ?_, (ht t).event_set.trans hexp.event_set,
    (ht t).event_info.trans hexp.event_info, fun u hut => (hexp.other u hut).trans (ht u)⟩
  by_contra hact
  have := (ht t).timer (by simpa using hact)
  rw [hexp.timer] at this
  cases this

/-! ### Priorities -/

/-- Only priorities change. -/
structure Reprioritized (s s' : Rtos) : Prop where
  inv : Inv s'
  suspend : ∀ l, s'.suspend_thread l = s.suspend_thread l
  kept : ∀ u, Kept (s.threads u) (s'.threads u)
  current : s'.rt_current_thread = s.rt_current_thread
  stat : ∀ u, (s'.threads u).stat = (s.threads u).stat

theorem Reprioritized.refl (h : Inv s) : Reprioritized s s :=
  ⟨h, fun _ => rfl, fun _ => Kept.refl _, rfl, fun _ => rfl⟩

theorem Reprioritized.trans (h : Reprioritized s s1) (h' : Reprioritized s1 s') :
    Reprioritized s s' :=
  ⟨h'.inv, fun l => (h'.suspend l).trans (h.suspend l), fun u => (h.kept u).trans (h'.kept u),
    h'.current.trans h.current, fun u => (h'.stat u).trans (h.stat u)⟩

theorem Reprioritized.runs (h : Reprioritized s s') (hr : Runs s t) : Runs s' t :=
  ⟨h.current.trans hr.1, (h.stat t).trans hr.2⟩

theorem Reprioritized.elsewhere {ls : Nat → Prop} {busy : Tid → Prop} (h : Reprioritized s s') :
    Elsewhere ls busy s s' :=
  ⟨h.inv, fun l _ => h.suspend l, fun u _ => h.kept u⟩

theorem rt_thread_control_priority_reprioritized {p : Nat} (h : Inv s) (hp : p < 32)
    (hs : s.rt_thread_control_priority t p = some s') : Reprioritized s s' := by
  have hinv := rt_thread_control_priority_inv h hp hs
  obtain ⟨hth, hs⟩ := RT_ASSERT_bind_eq_some.mp hs
  dsimp only at hs
  let change (th : Thread) : Thread :=
    { th with current_priority := p, number_mask := 1#32 <<< p }
  by_cases hst : (s.threads t).stat = .READY
  · rw [if_pos hst] at hs
    obtain rfl := Option.some.inj hs
    have hcur : s.rt_current_thread ≠ some t := fun hc =>
      ((h.thread t (by simp)).current hc).1 hst
    refine ⟨hinv, fun l => ?_, fun u => ?_, insert_current .., fun u => ?_⟩
    · simp only [insert_suspend, setThread_suspend, remove_suspend]
      exact filter_of_not_mem (h.not_waiting (by simp [hst]) l)
    · have hchange : Kept (s.threads u)
          (((s.rt_schedule_remove_thread t).setThread t change).threads u) :=
        setThread_kept (s := s.rt_schedule_remove_thread t) ⟨rfl, rfl, rfl, fun h => h⟩ u
      exact hchange.trans (insert_kept u)
    · by_cases hut : u = t
      · subst hut
        rw [insert_threads_self, hst]
        exact if_neg hcur
      · rw [insert_threads_of_ne _ t hut, setThread_of_ne _ t _ hut, remove_threads]
  · rw [if_neg hst] at hs
    obtain rfl := Option.some.inj hs
    refine ⟨hinv, fun l => rfl, setThread_kept ⟨rfl, rfl, rfl, fun h => h⟩, rfl, fun u => ?_⟩
    by_cases hut : u = t
    · subst hut
      rw [setThread_self]
    · rw [setThread_of_ne _ t _ hut]

/-- The error of a thread that does not wait is free to change. -/
theorem setError_elsewhere {ls : Nat → Prop} {busy : Tid → Prop} {e : Int} (h : Inv s)
    (hidle : ¬busy t) : Elsewhere ls busy s (s.setThread t fun th => { th with error := e }) := by
  refine ⟨resetError_inv h e, fun l _ => rfl, fun u hu => ?_⟩
  have hut : u ≠ t := fun heq => hidle (heq ▸ hu)
  rw [setThread_of_ne _ t _ hut]
  exact Kept.refl _

end

end Ab32Vg1.Kernel
