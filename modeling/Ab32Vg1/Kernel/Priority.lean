import Ab32Vg1.Kernel.Waiting

/-! What the operations of the kernel do to the priorities of the threads: nothing, apart from
`rt_thread_control`. -/

namespace Ab32Vg1.Kernel

open Rtos

/-- The thread keeps its priorities, and whether it is one. -/
structure SamePriority (th th' : Thread) : Prop where
  current_priority : th'.current_priority = th.current_priority
  init_priority : th'.init_priority = th.init_priority
  is_thread : th'.is_thread = th.is_thread

/-- All threads keep their priorities. -/
def Calm (s s' : Rtos) : Prop := ∀ u, SamePriority (s.threads u) (s'.threads u)

/-- Only the current priority of one thread changes. -/
structure SetsPriority (s s' : Rtos) (t : Tid) (p : Nat) : Prop where
  current_priority : (s'.threads t).current_priority = p
  init_priority : (s'.threads t).init_priority = (s.threads t).init_priority
  is_thread : (s'.threads t).is_thread = (s.threads t).is_thread
  other : ∀ u, u ≠ t → SamePriority (s.threads u) (s'.threads u)

theorem SamePriority.refl (th : Thread) : SamePriority th th := ⟨rfl, rfl, rfl⟩

theorem SamePriority.trans {th th' th'' : Thread} (h : SamePriority th th')
    (h' : SamePriority th' th'') : SamePriority th th'' :=
  ⟨h'.current_priority.trans h.current_priority, h'.init_priority.trans h.init_priority,
    h'.is_thread.trans h.is_thread⟩

section

variable {s s' s1 : Rtos} {t u : Tid}

theorem Calm.refl (s : Rtos) : Calm s s := fun _ => SamePriority.refl _

theorem Calm.trans (h : Calm s s1) (h' : Calm s1 s') : Calm s s' :=
  fun u => (h u).trans (h' u)

theorem SetsPriority.after {p : Nat} (h : SetsPriority s1 s' t p) (hc : Calm s s1) :
    SetsPriority s s' t p :=
  ⟨h.current_priority, h.init_priority.trans (hc t).init_priority,
    h.is_thread.trans (hc t).is_thread, fun u hu => (hc u).trans (h.other u hu)⟩

theorem SetsPriority.then {p : Nat} (h : SetsPriority s s1 t p) (hc : Calm s1 s') :
    SetsPriority s s' t p :=
  ⟨(hc t).current_priority.trans h.current_priority, (hc t).init_priority.trans h.init_priority,
    (hc t).is_thread.trans h.is_thread, fun u hu => (h.other u hu).trans (hc u)⟩

theorem Calm.created (h : Calm s s') (u : Tid) :
    (s'.threads u).init_priority = (s.threads u).init_priority ∧
      (s'.threads u).is_thread = (s.threads u).is_thread :=
  ⟨(h u).init_priority, (h u).is_thread⟩

theorem SetsPriority.created {p : Nat} (h : SetsPriority s s' t p) (u : Tid) :
    (s'.threads u).init_priority = (s.threads u).init_priority ∧
      (s'.threads u).is_thread = (s.threads u).is_thread := by
  by_cases hu : u = t
  · subst hu
    exact ⟨h.init_priority, h.is_thread⟩
  · exact ⟨(h.other u hu).init_priority, (h.other u hu).is_thread⟩

theorem setThread_calm {f : Thread → Thread} (hf : SamePriority (s.threads t) (f (s.threads t))) :
    Calm s (s.setThread t f) := by
  intro u
  by_cases hut : u = t
  · subst hut
    rw [setThread_self]
    exact hf
  · rw [setThread_of_ne s t f hut]
    exact SamePriority.refl _

theorem insert_calm : Calm s (s.rt_schedule_insert_thread t) := by
  intro u
  by_cases hut : u = t
  · subst hut
    rw [insert_threads_self]
    exact ⟨rfl, rfl, rfl⟩
  · rw [insert_threads_of_ne s t hut]
    exact SamePriority.refl _

theorem switchTo_calm {from_thread to_thread : Tid} {p : Nat} {need : Bool} :
    Calm s (s.switchTo from_thread to_thread p need) := by
  let s1 : Rtos := { s with rt_current_priority := p % 256, rt_current_thread := some to_thread }
  let s2 : Rtos := if need then s1.rt_schedule_insert_thread from_thread else s1
  have h12 : Calm s s2 := by
    cases need with
    | false => exact Calm.refl s
    | true => exact insert_calm (s := s1)
  have h23 : Calm s2 ((s2.rt_schedule_remove_thread to_thread).setThread to_thread fun th =>
      { th with stat := .RUNNING }) :=
    setThread_calm (s := s2.rt_schedule_remove_thread to_thread) ⟨rfl, rfl, rfl⟩
  exact h12.trans h23

theorem finishSchedule_calm {from_thread to_thread : Tid} {p : Nat} {need : Bool} :
    Calm s (s.finishSchedule from_thread to_thread p need) := by
  rw [finishSchedule]
  split
  · exact switchTo_calm
  · exact setThread_calm (s := s.rt_schedule_remove_thread from_thread) ⟨rfl, rfl, rfl⟩

theorem rt_schedule_calm (hs : s.rt_schedule = some s') : Calm s s' := by
  have hyield : ∀ cur, Calm s (s.setThread cur fun th => { th with stat_yield := false }) :=
    fun cur => setThread_calm ⟨rfl, rfl, rfl⟩
  rcases rt_schedule_cases hs with ⟨rfl, -⟩ | ⟨next, p, cur, -, -, -, -, hcase⟩
  · exact Calm.refl _
  · rcases hcase with ⟨-, -, rfl⟩ | ⟨-, -, rfl⟩ | ⟨-, rfl⟩
    · exact (hyield cur).trans finishSchedule_calm
    · exact (hyield cur).trans finishSchedule_calm
    · exact finishSchedule_calm

theorem wake_calm : Calm s (wake s t) := by
  have hstop : Calm s ((s.rt_list_remove t).rt_timer_stop t) :=
    setThread_calm (s := s.rt_list_remove t) ⟨rfl, rfl, rfl⟩
  exact hstop.trans insert_calm

theorem timerExpires_calm (hs : s.timerExpires t = some s') : Calm s s' := by
  obtain ⟨s1, h1, hs⟩ := Option.bind_eq_some_iff.mp hs
  obtain ⟨-, h1⟩ := RT_ASSERT_bind_eq_some.mp h1
  obtain ⟨-, h1⟩ := RT_ASSERT_bind_eq_some.mp h1
  obtain rfl := Option.some.inj h1
  have hstop : Calm s (s.rt_timer_stop t) := setThread_calm ⟨rfl, rfl, rfl⟩
  have herr : Calm (s.rt_timer_stop t)
      (((s.rt_timer_stop t).setThread t fun th => { th with error := -RT_ETIMEOUT }).rt_list_remove
        t) := by
    intro u
    rw [list_remove_threads]
    exact setThread_calm ⟨rfl, rfl, rfl⟩ u
  exact ((hstop.trans herr).trans insert_calm).trans (rt_schedule_calm hs)

theorem putToSleep_calm : Calm s (putToSleep s t) := by
  intro u
  by_cases hut : u = t
  · subst hut
    rw [putToSleep_self]
    exact ⟨rfl, rfl, rfl⟩
  · rw [putToSleep_of_ne hut]
    exact SamePriority.refl _

/-- The lists and the priorities after the running thread has begun to wait. -/
theorem suspendOn_calm {l : Nat} {flag : IpcFlag} {time : Int} (h : Inv s)
    (hrun : (s.threads t).stat = .RUNNING) (hs : s.suspendOn l t flag time = some s') :
    Calm s s' ∧ s'.suspend_thread l = waitingAfter s l t flag := by
  have hlist : (putToSleep s t).suspend_thread = s.suspend_thread := by
    funext l'
    exact filter_of_not_mem (h.not_waiting (by simp [hrun]) l')
  have hprio : ∀ u, ((putToSleep s t).threads u).current_priority = (s.threads u).current_priority :=
    fun u => (putToSleep_calm u).current_priority
  have hafter : ((putToSleep s t).insertWaiting l t flag).suspend_thread l
      = waitingAfter s l t flag := by
    cases flag <;> simp only [insertWaiting, Function.update_self, waitingAfter, hlist, hprio]
  rw [suspendOn, rt_ipc_list_suspend_eq h (Or.inr hrun), Option.bind_eq_bind, Option.bind_some] at hs
  by_cases htime : 0 < time
  · rw [if_pos htime] at hs
    obtain ⟨-, hs⟩ := RT_ASSERT_bind_eq_some.mp hs
    obtain rfl := Option.some.inj hs
    have hstart : Calm ((putToSleep s t).insertWaiting l t flag)
        (((putToSleep s t).insertWaiting l t flag).setThread t fun th =>
          { th with thread_timer := ⟨true, time.toNat⟩ }) := setThread_calm ⟨rfl, rfl, rfl⟩
    exact ⟨putToSleep_calm.trans hstart, hafter⟩
  · rw [if_neg htime] at hs
    obtain rfl := Option.some.inj hs
    exact ⟨putToSleep_calm, hafter⟩

theorem rt_thread_control_priority_sets {p : Nat}
    (hs : s.rt_thread_control_priority t p = some s') : SetsPriority s s' t p := by
  obtain ⟨-, hs⟩ := RT_ASSERT_bind_eq_some.mp hs
  dsimp only at hs
  let change (th : Thread) : Thread :=
    { th with current_priority := p, number_mask := 1#32 <<< p }
  have hchange : ∀ s0 : Rtos, s0.threads = s.threads → SetsPriority s (s0.setThread t change) t p := by
    intro s0 h0
    refine ⟨by rw [setThread_self], by rw [setThread_self, h0], by rw [setThread_self, h0],
      fun u hu => ?_⟩
    rw [setThread_of_ne s0 t change hu, h0]
    exact SamePriority.refl _
  by_cases hst : (s.threads t).stat = .READY
  · rw [if_pos hst] at hs
    obtain rfl := Option.some.inj hs
    exact (hchange (s.rt_schedule_remove_thread t) rfl).then insert_calm
  · rw [if_neg hst] at hs
    obtain rfl := Option.some.inj hs
    exact hchange s rfl

end

end Ab32Vg1.Kernel
