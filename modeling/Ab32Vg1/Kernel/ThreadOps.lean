import Ab32Vg1.Kernel.SchedulerOps

/-! The thread operations of `thread.c` and the list operations of `ipc.c`: in which states they
return, and that they keep the invariant of the scheduler. -/

namespace Ab32Vg1.Kernel

open Rtos

section

variable {s s' : Rtos} {t : Tid}

/-- `rt_schedule` returns once there is a current thread. -/
theorem rt_schedule_returns (h : Inv s) (hcur : s.rt_current_thread.isSome) :
    ∃ s', s.rt_schedule = some s' ∧ Inv s' := by
  have hret : ∃ s', s.rt_schedule = some s' := by
    obtain ⟨cur, hcur⟩ := Option.isSome_iff_exists.mp hcur
    unfold rt_schedule
    by_cases hlock : s.rt_scheduler_lock_nest = 0
    · rw [if_pos hlock]
      by_cases hgroup : s.rt_thread_ready_priority_group ≠ 0
      · rw [if_pos hgroup]
        obtain ⟨next, rest, p, hp, hcons, hget, -⟩ := h.highest hgroup
        rw [hget, hcur]
        dsimp only [Option.bind_eq_bind, Option.bind_some]
        split
        · split
          · exact ⟨_, rfl⟩
          · exact ⟨_, rfl⟩
        · exact ⟨_, rfl⟩
      · rw [if_neg hgroup]
        exact ⟨s, rfl⟩
    · rw [if_neg hlock]
      exact ⟨s, rfl⟩
  obtain ⟨s', hs⟩ := hret
  exact ⟨s', hs, rt_schedule_inv h hs⟩

/-! ### Waking and suspending -/

/-- What `rt_thread_resume` does to a suspended thread. -/
def wake (s : Rtos) (t : Tid) : Rtos :=
  ((s.rt_list_remove t).rt_timer_stop t).rt_schedule_insert_thread t

theorem rt_thread_resume_eq (hth : (s.threads t).is_thread = true)
    (hst : (s.threads t).stat = .SUSPEND) : s.rt_thread_resume t = some (wake s t, RT_EOK) := by
  unfold rt_thread_resume
  rw [RT_ASSERT_true hth]
  simp [hst, wake]

@[simp] theorem wake_current : (wake s t).rt_current_thread = s.rt_current_thread := by
  simp [wake, rt_timer_stop]

theorem wake_inv (h : Inv s) (hst : (s.threads t).stat = .SUSPEND) : Inv (wake s t) := by
  have ht := h.thread t (by simp)
  have hfloat := (h.rt_list_remove (t := t) (by simp [hst])).setThread fun th =>
    { th with thread_timer := { th.thread_timer with activated := false } }
  show SchedInv _ none (wake s t).rt_current_thread
  rw [wake_current]
  apply hfloat.rt_schedule_insert_thread <;> simp only [setThread_self, list_remove_threads]
  · exact ht.priority_lt
  · exact ht.init_lt
  · exact ht.mask (Or.inr (Or.inr hst))
  · exact Iff.rfl
  · exact ht.object (by simp [hst])

theorem rt_thread_resume_inv {r : Int} (h : Inv s) (hs : s.rt_thread_resume t = some (s', r)) :
    Inv s' := by
  unfold rt_thread_resume at hs
  obtain ⟨hth, hs⟩ := RT_ASSERT_bind_eq_some.mp hs
  by_cases hst : (s.threads t).stat = .SUSPEND
  · rw [if_neg (by simpa using hst)] at hs
    obtain ⟨rfl, -⟩ := Prod.mk.inj (Option.some.inj hs)
    exact wake_inv h hst
  · rw [if_pos hst] at hs
    obtain ⟨rfl, -⟩ := Prod.mk.inj (Option.some.inj hs)
    exact h

/-- What `rt_thread_suspend` does to a ready or running thread. -/
def putToSleep (s : Rtos) (t : Tid) : Rtos :=
  ((s.rt_schedule_remove_thread t).setThread t fun th => { th with stat := .SUSPEND }).rt_timer_stop t

theorem rt_thread_suspend_eq (h : Inv s)
    (hst : (s.threads t).stat = .READY ∨ (s.threads t).stat = .RUNNING) :
    s.rt_thread_suspend t = some (putToSleep s t, RT_EOK) := by
  have ht := h.thread t (by simp)
  have hth : (s.threads t).is_thread = true := by
    apply ht.object
    rcases hst with hst | hst <;> simp [hst]
  unfold rt_thread_suspend
  rw [RT_ASSERT_true hth]
  dsimp only [Option.bind_eq_bind, Option.bind_some]
  rw [if_neg (by rcases hst with hst | hst <;> simp [hst]), RT_ASSERT_true ht.running]
  rfl

theorem putToSleep_self : (putToSleep s t).threads t =
    { s.threads t with
      stat := .SUSPEND, thread_timer := { (s.threads t).thread_timer with activated := false } } := by
  simp [putToSleep, rt_timer_stop]

/-- A thread put to sleep is in no list, and may as well settle. -/
theorem putToSleep_float (h : Inv s)
    (hst : (s.threads t).stat = .READY ∨ (s.threads t).stat = .RUNNING) :
    SchedInv (putToSleep s t) (some t) s.rt_current_thread := by
  have hstarted : Started (s.threads t).stat := by
    rcases hst with hst | hst
    · exact Or.inl hst
    · exact Or.inr (Or.inl hst)
  have hfloat := (h.rt_schedule_remove_thread hstarted).setThread fun th =>
    { th with stat := .SUSPEND }
  exact hfloat.setThread fun th =>
    { th with thread_timer := { th.thread_timer with activated := false } }

theorem putToSleep_inv (h : Inv s)
    (hst : (s.threads t).stat = .READY ∨ (s.threads t).stat = .RUNNING) : Inv (putToSleep s t) := by
  have ht := h.thread t (by simp)
  show SchedInv _ none s.rt_current_thread
  apply (putToSleep_float h hst).settle <;> simp only [putToSleep_self]
  · exact ht.priority_lt
  · exact ht.init_lt
  · intro _
    apply ht.mask
    rcases hst with hst | hst
    · exact Or.inl hst
    · exact Or.inr (Or.inl hst)
  · simp
  · simp
  · simp
  · simp
  · intro _
    apply ht.object
    rcases hst with hst | hst <;> simp [hst]

theorem rt_thread_suspend_inv {r : Int} (h : Inv s) (hs : s.rt_thread_suspend t = some (s', r)) :
    Inv s' := by
  by_cases hst : (s.threads t).stat = .READY ∨ (s.threads t).stat = .RUNNING
  · rw [rt_thread_suspend_eq h hst] at hs
    obtain ⟨rfl, -⟩ := Prod.mk.inj (Option.some.inj hs)
    exact putToSleep_inv h hst
  · unfold rt_thread_suspend at hs
    obtain ⟨hth, hs⟩ := RT_ASSERT_bind_eq_some.mp hs
    rw [if_pos (not_or.mp hst)] at hs
    obtain ⟨rfl, -⟩ := Prod.mk.inj (Option.some.inj hs)
    exact h

theorem rt_timer_start_inv {tick : Nat} (h : Inv s) (hst : (s.threads t).stat = .SUSPEND)
    (hs : s.rt_timer_start t tick = some s') : Inv s' := by
  obtain ⟨-, hs⟩ := RT_ASSERT_bind_eq_some.mp hs
  obtain rfl := Option.some.inj hs
  exact h.touch rfl rfl rfl rfl rfl fun _ => hst

/-! ### Waiting lists -/

theorem rt_ipc_list_suspend_eq {l : Nat} {flag : IpcFlag} (h : Inv s)
    (hst : (s.threads t).stat = .READY ∨ (s.threads t).stat = .RUNNING) :
    s.rt_ipc_list_suspend l t flag = some ((putToSleep s t).insertWaiting l t flag) := by
  unfold rt_ipc_list_suspend
  rw [rt_thread_suspend_eq h hst]
  rfl

theorem insertWaiting_inv {l : Nat} {flag : IpcFlag} (h : Inv s)
    (hst : (s.threads t).stat = .READY ∨ (s.threads t).stat = .RUNNING) :
    Inv ((putToSleep s t).insertWaiting l t flag) := by
  have ht := h.thread t (by simp)
  show SchedInv _ none s.rt_current_thread
  apply (putToSleep_float h hst).insertWaiting <;> simp only [putToSleep_self]
  · exact ht.priority_lt
  · exact ht.init_lt
  · apply ht.mask
    rcases hst with hst | hst
    · exact Or.inl hst
    · exact Or.inr (Or.inl hst)
  · apply ht.object
    rcases hst with hst | hst <;> simp [hst]

/-- The state in which a running thread waits on a list, before its timer is started. -/
def waiting (s : Rtos) (l : Nat) (t : Tid) (flag : IpcFlag) : Rtos :=
  (putToSleep (s.setThread t fun th => { th with error := RT_EOK }) t).insertWaiting l t flag

theorem resetError_inv (h : Inv s) (e : Int) :
    Inv (s.setThread t fun th => { th with error := e }) :=
  SchedInv.touch h rfl rfl rfl rfl rfl (h.thread t (by simp)).timer

theorem waiting_inv {l : Nat} {flag : IpcFlag} (h : Inv s)
    (hst : (s.threads t).stat = .READY ∨ (s.threads t).stat = .RUNNING) :
    Inv (waiting s l t flag) :=
  insertWaiting_inv (resetError_inv h RT_EOK) (by simpa using hst)

theorem waiting_self {l : Nat} {flag : IpcFlag} : (waiting s l t flag).threads t =
    { s.threads t with
      stat := .SUSPEND
      error := RT_EOK
      thread_timer := { (s.threads t).thread_timer with activated := false } } := by
  show (putToSleep _ t).threads t = _
  rw [putToSleep_self]
  simp

/-- Beginning to wait, for a thread that may be suspended. -/
theorem waitOn_eq {l : Nat} {flag : IpcFlag} {timeout : Int} (h : Inv s)
    (hst : (s.threads t).stat = .READY ∨ (s.threads t).stat = .RUNNING) :
    s.waitOn l t flag timeout =
      if 0 < timeout then (waiting s l t flag).rt_timer_start t timeout.toNat
      else some (waiting s l t flag) := by
  unfold waitOn suspendOn
  rw [rt_ipc_list_suspend_eq (resetError_inv h RT_EOK) (by simpa using hst)]
  rfl

theorem waitOn_inv {l : Nat} {flag : IpcFlag} {timeout : Int} (h : Inv s)
    (hst : (s.threads t).stat = .READY ∨ (s.threads t).stat = .RUNNING)
    (hs : s.waitOn l t flag timeout = some s') : Inv s' := by
  rw [waitOn_eq h hst] at hs
  by_cases htime : 0 < timeout
  · rw [if_pos htime] at hs
    exact rt_timer_start_inv (waiting_inv h hst) (by rw [waiting_self]) hs
  · rw [if_neg htime] at hs
    obtain rfl := Option.some.inj hs
    exact waiting_inv h hst

theorem rt_ipc_list_resume_inv {l : Nat} (h : Inv s) (hs : s.rt_ipc_list_resume l = some s') :
    Inv s' := by
  unfold rt_ipc_list_resume at hs
  split at hs
  · cases hs
  · obtain ⟨⟨s1, r⟩, hres, hs⟩ := Option.bind_eq_some_iff.mp hs
    obtain rfl := Option.some.inj hs
    exact rt_thread_resume_inv h hres

theorem resumeAll_inv {l n : Nat} (h : Inv s) (hs : resumeAll l n s = some s') : Inv s' := by
  induction n generalizing s with
  | zero =>
    unfold resumeAll at hs
    split at hs
    · exact Option.some.inj hs ▸ h
    · cases hs
    · rename_i heq
      cases heq
  | succ n ih =>
    unfold resumeAll at hs
    split at hs
    · exact Option.some.inj hs ▸ h
    · rename_i heq
      cases heq
    · rename_i heq
      cases heq
      obtain ⟨⟨s1, r⟩, hres, hs⟩ := Option.bind_eq_some_iff.mp hs
      exact ih (rt_thread_resume_inv (resetError_inv h _) hres) hs

/-! ### Timeouts -/

theorem expire_inv (h : Inv s) (htimer : (s.threads t).thread_timer.activated = false)
    (hs : s.expire t = some s') : Inv s' := by
  obtain ⟨hst, hs⟩ := RT_ASSERT_bind_eq_some.mp hs
  obtain ⟨hth, hs⟩ := RT_ASSERT_bind_eq_some.mp hs
  obtain rfl := Option.some.inj hs
  have h1 := resetError_inv (t := t) h (-RT_ETIMEOUT)
  have ht := h1.thread t (by simp)
  have hfloat := h1.rt_list_remove (t := t) (by simp [hst])
  show SchedInv _ none _
  rw [insert_current]
  apply hfloat.rt_schedule_insert_thread
  · exact ht.priority_lt
  · exact ht.init_lt
  · exact ht.mask (Or.inr (Or.inr (by simpa using hst)))
  · exact Iff.rfl
  · simpa using htimer
  · simpa using hth

theorem timerExpires_returns (h : Inv s) (hact : (s.threads t).thread_timer.activated = true)
    (hcur : s.rt_current_thread.isSome) :
    ∃ s1 s', (s.rt_timer_stop t).expire t = some s1 ∧ s1.rt_schedule = some s' ∧
      s.timerExpires t = some s' ∧ Inv s1 ∧ Inv s' := by
  have ht := h.thread t (by simp)
  have hst := ht.timer hact
  have hstop : Inv (s.rt_timer_stop t) := SchedInv.touch h rfl rfl rfl rfl rfl (by simp)
  have hexp : (s.rt_timer_stop t).expire t = some ((((s.rt_timer_stop t).setThread t fun th =>
      { th with error := -RT_ETIMEOUT }).rt_list_remove t).rt_schedule_insert_thread t) := by
    unfold expire
    rw [RT_ASSERT_true (by simpa [rt_timer_stop] using hst),
      RT_ASSERT_true (by simpa [rt_timer_stop] using ht.object (by simp [hst]))]
    rfl
  have h1 := expire_inv hstop (by simp [rt_timer_stop]) hexp
  obtain ⟨s', hs', h'⟩ := rt_schedule_returns h1 (by
    rw [insert_current]
    exact hcur)
  refine ⟨_, s', hexp, hs', ?_, h1, h'⟩
  unfold timerExpires rt_thread_timeout
  rw [hexp]
  exact hs'

end

end Ab32Vg1.Kernel
