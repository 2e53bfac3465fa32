import Ab32Vg1.Kernel.ThreadOps
import Ab32Vg1.ProofKit.Transition

/-! Runs of the scheduler: any sequence of thread operations, timeouts and calls of `rt_schedule`
keeps the ready queues consistent, and `rt_schedule` picks a thread of the highest priority. -/

namespace Ab32Vg1.Kernel

open ProofKit Rtos

/-! ### Creating, starting and closing threads -/

section

variable {s s' : Rtos} {t : Tid}

/-- A thread that is in no list may float. -/
theorem SchedInv.unsettle {c : Option Tid} (h : SchedInv s none c) (hun : Unlisted s t) :
    SchedInv s (some t) c :=
  ⟨fun u _ => h.thread u (by simp), fun u hu => Option.some.inj hu ▸ hun, h.group, h.table_nodup,
    h.suspend_nodup, h.suspend_unique, h.defunct_nodup⟩

/-- The lists hold ready, suspended and closed threads. -/
theorem ThreadOk.unlisted {c : Option Tid} (h : ThreadOk s c t)
    (hready : (s.threads t).stat ≠ .READY) (hsuspend : (s.threads t).stat ≠ .SUSPEND)
    (hdefunct : (s.threads t).stat = .CLOSE → (s.threads t).is_thread = false) : Unlisted s t where
  table p hp := hready (h.ready p hp).1
  suspend l hl := hsuspend (h.waiting l hl)
  defunct hd := by
    obtain ⟨h1, h2⟩ := h.defunct hd
    rw [hdefunct h1] at h2
    cases h2

theorem rt_thread_init_inv {o : Bool} {p tick : Nat} (h : Inv s)
    (hst : (s.threads t).stat = .CLOSE) (hcur : s.rt_current_thread ≠ some t)
    (hs : s.rt_thread_init t o p tick = some s') : Inv s' := by
  obtain ⟨hth, hs⟩ := RT_ASSERT_bind_eq_some.mp hs
  obtain ⟨hp, hs⟩ := RT_ASSERT_bind_eq_some.mp hs
  obtain rfl := Option.some.inj hs
  have hun := (h.thread t (by simp)).unlisted (by simp [hst]) (by simp [hst]) fun _ => hth
  show SchedInv _ none s.rt_current_thread
  apply ((h.unsettle hun).setThread _).settle <;> simp only [setThread_self]
  · exact hp
  · exact hp
  · simp [Started]
  · simp
  · simp
  · exact fun heq => absurd heq hcur
  · simp
  · simp

theorem startup_inv (h : Inv s) (hs : s.startup t = some s') : Inv s' := by
  obtain ⟨hst, hs⟩ := RT_ASSERT_bind_eq_some.mp hs
  obtain ⟨hth, hs⟩ := RT_ASSERT_bind_eq_some.mp hs
  obtain ⟨⟨s1, r⟩, hres, hs⟩ := Option.bind_eq_some_iff.mp hs
  obtain rfl := Option.some.inj hs
  have ht := h.thread t (by simp)
  have hun := ht.unlisted (by simp [hst]) (by simp [hst]) (by simp [hst])
  refine rt_thread_resume_inv (s := s.setThread t _) ?_ hres
  show SchedInv _ none s.rt_current_thread
  apply ((h.unsettle hun).setThread _).settle <;> simp only [setThread_self]
  · exact ht.init_lt
  · exact ht.init_lt
  · simp
  · simp
  · simp
  · simp
  · simp
  · exact fun _ => hth

/-- The priority of a thread that is not queued is free to change. -/
theorem reprioritize_inv {p : Nat} (h : Inv s) (hp : p < 32) (hst : (s.threads t).stat ≠ .READY) :
    Inv (s.setThread t fun th =>
      { th with current_priority := p, number_mask := 1#32 <<< p }) := by
  refine ⟨fun u _ => ?_, fun u hu => by simp at hu, h.group, h.table_nodup, h.suspend_nodup,
    h.suspend_unique, h.defunct_nodup⟩
  obtain ⟨h1, h2, h3, h4, h5, h6, h7, h8, h9, h10, h11⟩ := h.thread u (by simp)
  by_cases hut : u = t
  · subst hut
    constructor <;> simp only [setThread_self, setThread_table, setThread_suspend,
      setThread_defunct, setThread_current]
    · exact hp
    · exact h2
    · simp
    · exact fun hr => absurd hr hst
    · exact fun q hq => absurd (h5 q hq).1 hst
    · exact h6
    · exact h7
    · exact h8
    · exact h9
    · exact h10
    · exact h11
  · constructor <;> simp only [setThread_of_ne s t _ hut] <;> assumption

theorem rt_thread_control_priority_inv {p : Nat} (h : Inv s) (hp : p < 32)
    (hs : s.rt_thread_control_priority t p = some s') : Inv s' := by
  obtain ⟨hth, hs⟩ := RT_ASSERT_bind_eq_some.mp hs
  have ht := h.thread t (by simp)
  by_cases hst : (s.threads t).stat = .READY
  · rw [if_pos hst] at hs
    obtain rfl := Option.some.inj hs
    have hfloat := (h.rt_schedule_remove_thread (t := t) (Or.inl hst)).setThread fun th =>
      { th with current_priority := p, number_mask := 1#32 <<< p }
    show SchedInv _ none _
    rw [insert_current]
    apply hfloat.rt_schedule_insert_thread
    · simpa using hp
    · simpa using ht.init_lt
    · simp
    · exact Iff.rfl
    · simpa using ht.timer_idle (by simp [hst])
    · simpa using hth
  · rw [if_neg hst] at hs
    obtain rfl := Option.some.inj hs
    exact reprioritize_inv h hp hst

/-- The thread taken off its list, or off none before it is started. -/
theorem unschedule_float (h : Inv s) (hst : (s.threads t).stat ≠ .CLOSE) :
    SchedInv (if (s.threads t).stat ≠ .INIT then s.rt_schedule_remove_thread t else s) (some t)
      s.rt_current_thread := by
  by_cases hinit : (s.threads t).stat = .INIT
  · rw [if_neg (by simpa using hinit)]
    exact h.unsettle ((h.thread t (by simp)).unlisted (by simp [hinit]) (by simp [hinit])
      (by simp [hinit]))
  · rw [if_pos hinit]
    apply h.rt_schedule_remove_thread
    unfold Started
    cases hs : (s.threads t).stat <;> simp_all

theorem unschedule_threads :
    (if (s.threads t).stat ≠ .INIT then s.rt_schedule_remove_thread t else s).threads t =
      s.threads t := by
  split <;> rfl

theorem unschedule_current :
    (if (s.threads t).stat ≠ .INIT then s.rt_schedule_remove_thread t else s).rt_current_thread =
      s.rt_current_thread := by
  split <;> rfl

theorem rt_thread_detach_inv (h : Inv s) (hs : s.rt_thread_detach t = some s') :
    Inv s' ∧ s'.rt_current_thread = s.rt_current_thread := by
  obtain ⟨hth, hs⟩ := RT_ASSERT_bind_eq_some.mp hs
  obtain ⟨-, hs⟩ := RT_ASSERT_bind_eq_some.mp hs
  by_cases hst : (s.threads t).stat = .CLOSE
  · rw [if_pos hst] at hs
    obtain rfl := Option.some.inj hs
    exact ⟨h, rfl⟩
  · rw [if_neg hst] at hs
    obtain rfl := Option.some.inj hs
    have ht := h.thread t (by simp)
    have hfloat := ((unschedule_float h hst).setThread fun th =>
      { th with thread_timer := { th.thread_timer with activated := false } }).setThread fun th =>
      { th with stat := .CLOSE, stat_yield := false, is_thread := false }
    refine ⟨?_, unschedule_current⟩
    show SchedInv _ none (if _ then _ else _ : Rtos).rt_current_thread
    rw [unschedule_current]
    apply hfloat.settle <;> simp only [setThread_self, unschedule_threads]
    · exact ht.priority_lt
    · exact ht.init_lt
    · simp [Started]
    · simp
    · simp
    · simp
    · simp
    · simp

theorem rt_thread_delete_inv (h : Inv s) (hs : s.rt_thread_delete t = some s') :
    Inv s' ∧ s'.rt_current_thread = s.rt_current_thread := by
  obtain ⟨hth, hs⟩ := RT_ASSERT_bind_eq_some.mp hs
  obtain ⟨-, hs⟩ := RT_ASSERT_bind_eq_some.mp hs
  by_cases hst : (s.threads t).stat = .CLOSE
  · rw [if_pos hst] at hs
    obtain rfl := Option.some.inj hs
    exact ⟨h, rfl⟩
  · rw [if_neg hst] at hs
    obtain rfl := Option.some.inj hs
    have ht := h.thread t (by simp)
    have hfloat := ((unschedule_float h hst).setThread fun th =>
      { th with thread_timer := { th.thread_timer with activated := false } }).setThread fun th =>
      { th with stat := .CLOSE, stat_yield := false }
    refine ⟨?_, unschedule_current⟩
    show SchedInv _ none (if _ then _ else _ : Rtos).rt_current_thread
    rw [unschedule_current]
    apply hfloat.insertDefunct <;> simp only [setThread_self, unschedule_threads]
    · exact ht.priority_lt
    · exact ht.init_lt
    · exact hth

end

/-! ### Calls -/

/-- One call by a thread or by an interrupt handler. -/
inductive Op where
  | thread_init (t : Tid) (systemobject : Bool) (priority tick : Nat)
  | startup (t : Tid)
  | scheduler_start
  | suspend (t : Tid)
  | resume (t : Tid)
  | change_priority (t : Tid) (priority : Nat)
  | close (t : Tid)
  | delete (t : Tid)
  | detach (t : Tid)
  | yield
  | sleep (tick : Nat)
  | timeout (t : Tid)
  | schedule
  | enter_critical
  | exit_critical
  | interrupt_enter
  | interrupt_leave
  | wait (l : Nat) (flag : IpcFlag) (time : Int)
  | wakeup (l : Nat)
  | wakeup_all (l : Nat)

namespace Op

def run (s : Rtos) : Op → Option Rtos
  | thread_init t o p tick => s.rt_thread_init t o p tick
  | startup t => s.rt_thread_startup t
  | scheduler_start => s.rt_system_scheduler_start
  | suspend t => (s.rt_thread_suspend t).map Prod.fst
  | resume t => (s.rt_thread_resume t).map Prod.fst
  | change_priority t p => s.rt_thread_control_priority t p
  | close t => do
    let s ← s.rt_thread_control_close t
    s.rt_schedule
  | delete t => s.rt_thread_delete t
  | detach t => s.rt_thread_detach t
  | yield => s.rt_thread_yield
  | sleep tick => do
    let s ← s.startSleep tick
    s.rt_schedule
  | timeout t => s.timerExpires t
  | schedule => s.rt_schedule
  | enter_critical => some s.rt_enter_critical
  | exit_critical => s.rt_exit_critical
  | interrupt_enter => some s.rt_interrupt_enter
  | interrupt_leave => some s.rt_interrupt_leave
  | wait l flag time => do
    let t ← s.rt_current_thread
    s.waitOn l t flag time
  | wakeup l => s.rt_ipc_list_resume l
  | wakeup_all l => s.rt_ipc_list_resume_all l

/-- The scheduler has a running thread. -/
def SelfRuns (s : Rtos) : Prop := ∃ t, s.rt_current_thread = some t ∧ (s.threads t).stat = .RUNNING

/-- What the caller of an operation promises. -/
def Valid (s : Rtos) : Op → Prop
  | thread_init t _ p _ => (s.threads t).is_thread = false ∧ (s.threads t).stat = .CLOSE ∧
      s.rt_current_thread ≠ some t ∧ p < RT_THREAD_PRIORITY_MAX
  | startup t => (s.threads t).stat = .INIT
  | scheduler_start => s.rt_current_thread = none ∧ ∃ t, (s.threads t).stat = .READY
  | suspend t => (s.threads t).is_thread = true
  | resume t => (s.threads t).is_thread = true
  | change_priority t p => (s.threads t).is_thread = true ∧ p < RT_THREAD_PRIORITY_MAX
  | close t => (s.threads t).is_thread = true ∧ s.rt_current_thread.isSome
  | delete t => (s.threads t).is_thread = true ∧ (s.threads t).systemobject = false
  | detach t => (s.threads t).is_thread = true ∧ (s.threads t).systemobject = true
  | yield => s.rt_current_thread.isSome
  | sleep tick => SelfRuns s ∧ tick < RT_TICK_MAX / 2
  | timeout t => (s.threads t).thread_timer.activated = true ∧ s.rt_current_thread.isSome
  | schedule => s.rt_current_thread.isSome
  | wait _ _ time => SelfRuns s ∧ time < (RT_TICK_MAX / 2 : Nat)
  | wakeup l => s.suspend_thread l ≠ []
  | enter_critical | exit_critical | interrupt_enter | interrupt_leave | wakeup_all _ => True

/-- The operation ends with a call of `rt_schedule`. -/
def Schedules (s : Rtos) : Op → Prop
  | startup _ => s.rt_current_thread.isSome
  | close _ | yield | sleep _ | timeout _ | schedule => True
  | exit_critical => (s.rt_scheduler_lock_nest - 1).toInt ≤ 0 ∧ s.rt_current_thread.isSome
  | _ => False

end Op

/-- The current thread, when it can run, has no lower priority than any ready thread. -/
def TopPriority (s : Rtos) : Prop :=
  ∀ cur, s.rt_current_thread = some cur →
    (s.threads cur).stat = .READY ∨ (s.threads cur).stat = .RUNNING →
    ∀ t, (s.threads t).stat = .READY →
      (s.threads cur).current_priority ≤ (s.threads t).current_priority

/-- The ready queues, the group and the control blocks agree. -/
structure ReadyQueues (s : Rtos) : Prop where
  group_iff : ∀ p, p < 32 →
    (s.rt_thread_ready_priority_group.getLsbD p = true ↔ s.rt_thread_priority_table p ≠ [])
  queued : ∀ p, ∀ t ∈ s.rt_thread_priority_table p, (s.threads t).stat = .READY ∧
    (s.threads t).current_priority = p ∧ (s.threads t).number_mask = 1#32 <<< p
  once : ∀ p, ∀ t ∈ s.rt_thread_priority_table p, (s.rt_thread_priority_table p).count t = 1 ∧
    (∀ q, q ≠ p → t ∉ s.rt_thread_priority_table q) ∧ (∀ l, t ∉ s.suspend_thread l) ∧
    t ∉ s.rt_thread_defunct
  running : ∀ t, s.rt_current_thread = some t ∨ (s.threads t).stat = .RUNNING →
    ∀ p, t ∉ s.rt_thread_priority_table p

theorem Inv.readyQueues {s : Rtos} (h : Inv s) : ReadyQueues s where
  group_iff := h.group
  queued p t ht := by
    have hok := h.thread t (by simp)
    obtain ⟨hst, rfl⟩ := hok.ready p ht
    exact ⟨hst, rfl, hok.mask (Or.inl hst)⟩
  once p t ht := by
    have hok := h.thread t (by simp)
    obtain ⟨hst, rfl⟩ := hok.ready p ht
    refine ⟨List.count_eq_one_of_mem (h.table_nodup _) ht, fun q hq ht' => hq (hok.ready q ht').2.symm,
      fun l hl => ?_, fun hd => ?_⟩
    · have := hok.waiting l hl
      rw [hst] at this
      cases this
    · have := (hok.defunct hd).1
      rw [hst] at this
      cases this
  running t ht p hp := by
    have hok := h.thread t (by simp)
    have hst := (hok.ready p hp).1
    rcases ht with hcur | hrun
    · exact (hok.current hcur).1 hst
    · rw [hst] at hrun
      cases hrun

section

variable {s s' : Rtos} {t : Tid}

/-! ### `rt_schedule` picks the highest priority -/

theorem highest_le {p : Nat} (h : Inv s)
    (hclear : ∀ q, q < p → s.rt_thread_priority_table q = []) (hst : (s.threads t).stat = .READY) :
    p ≤ (s.threads t).current_priority := by
  by_contra hlt
  have hmem := (h.thread t (by simp)).queued hst
  rw [hclear _ (by omega)] at hmem
  simp at hmem

/-- Only the old current thread becomes ready in a switch. -/
theorem switchTo_ready {from_thread to_thread : Tid} {p : Nat} {need : Bool}
    (hst : ((s.switchTo from_thread to_thread p need).threads t).stat = .READY) :
    (t = from_thread ∧ need = true ∨ (s.threads t).stat = .READY) ∧
      ((s.switchTo from_thread to_thread p need).threads t).current_priority =
        (s.threads t).current_priority := by
  unfold switchTo contextSwitch at hst ⊢
  simp only at hst ⊢
  by_cases hto : t = to_thread
  · subst hto
    simp at hst
  · simp only [setThread_of_ne _ to_thread _ hto, remove_threads] at hst ⊢
    cases need with
    | false => exact ⟨Or.inr hst, rfl⟩
    | true =>
      simp only [if_true] at hst ⊢
      by_cases hfrom : t = from_thread
      · subst hfrom
        rw [insert_threads_self]
        exact ⟨Or.inl (by simp), rfl⟩
      · rw [insert_threads_of_ne _ from_thread hfrom] at hst ⊢
        exact ⟨Or.inr hst, rfl⟩

theorem switchTo_current {from_thread to_thread : Tid} {p : Nat} {need : Bool} :
    (s.switchTo from_thread to_thread p need).rt_current_thread = some to_thread := by
  unfold switchTo contextSwitch
  cases need <;> simp

theorem switchTo_priority {from_thread to_thread : Tid} {p : Nat} {need : Bool}
    (hne : to_thread ≠ from_thread) :
    ((s.switchTo from_thread to_thread p need).threads to_thread).current_priority =
      (s.threads to_thread).current_priority := by
  unfold switchTo contextSwitch
  cases need <;> simp [insert_threads_of_ne _ from_thread hne]

theorem rt_schedule_top (h : Inv s) (hs : s.rt_schedule = some s')
    (hlock : s'.rt_scheduler_lock_nest = 0) : TopPriority s' := by
  intro cur hcur hcan t hst
  rcases rt_schedule_cases hs with ⟨rfl, hor⟩ | ⟨next, p, cur', -, hgroup, hnext, hcur', hcase⟩
  · -- no thread is ready
    have hgroup := hor.resolve_left (not_not.mpr hlock)
    have ht := h.thread t (by simp)
    have hbit := (h.group _ ht.priority_lt).mpr (List.ne_nil_of_mem (ht.queued hst))
    rw [hgroup] at hbit
    simp at hbit
  obtain ⟨next', rest, p', hp', hcons, hget, hclear⟩ := h.highest hgroup
  obtain ⟨rfl, rfl⟩ := Prod.mk.inj (Option.some.inj (hnext.symm.trans hget))
  obtain ⟨hready, hprio⟩ := (h.thread next (by simp)).ready p (by rw [hcons]; exact List.mem_cons_self)
  have hne : next ≠ cur' := by
    rintro rfl
    exact ((h.thread next (by simp)).current hcur').1 hready
  rcases hcase with ⟨hrun, hkeep, rfl⟩ | ⟨hrun, hkeep, rfl⟩ | ⟨hrun, rfl⟩
  · -- the current thread stays
    rw [finishSchedule, if_neg (by simp)] at hcur hcan hst ⊢
    obtain rfl := Option.some.inj (hcur'.symm.trans hcur)
    by_cases htc : t = cur'
    · subst htc
      simp at hst
    · rw [setThread_of_ne _ cur' _ htc, remove_threads, setThread_of_ne _ cur' _ htc] at hst ⊢
      have hle := highest_le h hclear hst
      simp only [setThread_self, remove_threads]
      rcases hkeep with hkeep | ⟨hkeep, -⟩
      · omega
      · omega
  · rw [finishSchedule, if_pos hne] at hcur hcan hst ⊢
    rw [switchTo_current] at hcur
    obtain rfl := Option.some.inj hcur
    obtain ⟨hwas, hpt⟩ := switchTo_ready hst
    rw [switchTo_priority hne, hpt, setThread_of_ne _ cur' _ hne, hprio]
    rcases hwas with ⟨rfl, -⟩ | hwas
    · -- the old thread has yielded or has a lower priority
      simp only [setThread_self]
      by_contra hlt
      exact hkeep (Or.inl (by omega))
    · have htc : t ≠ cur' := by
        rintro rfl
        rw [setThread_self, hrun] at hwas
        cases hwas
      rw [setThread_of_ne _ cur' _ htc] at hwas ⊢
      exact highest_le h hclear hwas
  · rw [finishSchedule, if_pos hne] at hcur hcan hst ⊢
    rw [switchTo_current] at hcur
    obtain rfl := Option.some.inj hcur
    obtain ⟨hwas, hpt⟩ := switchTo_ready hst
    rw [switchTo_priority hne, hpt, hprio]
    rcases hwas with ⟨-, hfalse⟩ | hwas
    · cases hfalse
    · exact highest_le h hclear hwas

/-! ### One call -/

theorem scheduler_start_inv (h : Inv s) (hcur : s.rt_current_thread = none)
    (hready : (s.threads t).stat = .READY) :
    ∃ s', s.rt_system_scheduler_start = some s' ∧ Inv s' := by
  have ht := h.thread t (by simp)
  have hgroup : s.rt_thread_ready_priority_group ≠ 0 := by
    intro hzero
    have hbit := (h.group _ ht.priority_lt).mpr (List.ne_nil_of_mem (ht.queued hready))
    rw [hzero] at hbit
    simp at hbit
  obtain ⟨next, rest, p, hp, hcons, hget, -⟩ := h.highest hgroup
  have hnext := h.thread next (by simp)
  obtain ⟨hst, -⟩ := hnext.ready p (by rw [hcons]; exact List.mem_cons_self)
  unfold rt_system_scheduler_start
  rw [hget]
  refine ⟨_, rfl, ?_⟩
  unfold Inv at h
  rw [hcur] at h
  let s1 : Rtos := { s with rt_current_thread := some next }
  have h1 : SchedInv s1 none none := h.congr rfl rfl rfl rfl rfl
  have hfloat := ((h1.rt_schedule_remove_thread (t := next) (Or.inl hst)).occupy).setThread fun th =>
    { th with stat := .RUNNING, stat_yield := false }
  have hsettle : SchedInv ((s1.rt_schedule_remove_thread next).setThread next fun th =>
      { th with stat := .RUNNING, stat_yield := false }) none (some next) := by
    apply hfloat.settle <;> simp only [setThread_self, remove_threads]
    · exact hnext.priority_lt
    · exact hnext.init_lt
    · exact fun _ => hnext.mask (Or.inl hst)
    · simp
    · simp
    · simp
    · simp [s1, hnext.timer_idle (by simp [hst])]
    · exact fun _ => hnext.object (by simp [hst])
  exact hsettle.congr rfl rfl rfl rfl rfl

theorem startup_returns (h : Inv s) (hst : (s.threads t).stat = .INIT) :
    ∃ s1, s.startup t = some s1 ∧ Inv s1 ∧ s1.rt_current_thread = s.rt_current_thread := by
  have hth := (h.thread t (by simp)).object (by simp [hst])
  have hret : s.startup t = some (wake (s.setThread t fun th =>
      { th with
        current_priority := th.init_priority
        number_mask := 1#32 <<< th.init_priority
        stat := .SUSPEND
        stat_yield := false }) t) := by
    unfold startup
    rw [RT_ASSERT_true hst, RT_ASSERT_true hth]
    dsimp only [Option.bind_eq_bind, Option.bind_some]
    rw [rt_thread_resume_eq (by simpa using hth) (by simp)]
    rfl
  exact ⟨_, hret, startup_inv h hret, by simp⟩

theorem startSleep_returns {tick : Nat} (h : Inv s) (hself : Op.SelfRuns s)
    (htick : tick < RT_TICK_MAX / 2) :
    ∃ s1, s.startSleep tick = some s1 ∧ Inv s1 ∧ s1.rt_current_thread = s.rt_current_thread := by
  obtain ⟨t, hcur, hrun⟩ := hself
  have hret : s.startSleep tick = some ((putToSleep s t).setThread t fun th =>
      { th with thread_timer := ⟨true, tick⟩ }) := by
    unfold startSleep
    rw [hcur]
    dsimp only [Option.bind_eq_bind, Option.bind_some]
    rw [rt_thread_suspend_eq h (Or.inr hrun)]
    dsimp only [Option.bind_some]
    unfold Rtos.rt_timer_start
    rw [RT_ASSERT_true htick]
    rfl
  refine ⟨_, hret, ?_, rfl⟩
  exact SchedInv.touch (putToSleep_inv h (Or.inr hrun)) rfl rfl rfl rfl rfl fun _ => by
    rw [putToSleep_self]

theorem setYield_returns (h : Inv s) (hcur : s.rt_current_thread.isSome) :
    ∃ s1, s.setYield = some s1 ∧ Inv s1 ∧ s1.rt_current_thread = s.rt_current_thread := by
  obtain ⟨t, ht⟩ := Option.isSome_iff_exists.mp hcur
  have hret : s.setYield = some (s.setThread t fun th =>
      { th with remaining_tick := th.init_tick, stat_yield := true }) := by
    unfold setYield
    rw [ht]
    rfl
  exact ⟨_, hret, SchedInv.touch h rfl rfl rfl rfl rfl (h.thread t (by simp)).timer, rfl⟩

/-- The waiting threads of a list can all be resumed. -/
theorem resumeAll_returns {l n : Nat} (h : Inv s) (hn : (s.suspend_thread l).length ≤ n) :
    ∃ s', resumeAll l n s = some s' := by
  induction n generalizing s with
  | zero =>
    have hnil : s.suspend_thread l = [] := List.length_eq_zero_iff.mp (by omega)
    refine ⟨s, ?_⟩
    unfold resumeAll
    rw [hnil]
  | succ n ih =>
    cases hl : s.suspend_thread l with
    | nil =>
      refine ⟨s, ?_⟩
      unfold resumeAll
      rw [hl]
    | cons t rest =>
      have ht := h.thread t (by simp)
      have hst := ht.waiting l (by rw [hl]; exact List.mem_cons_self)
      have h1 := resetError_inv (t := t) h (-RT_ERROR)
      have hres := rt_thread_resume_eq (s := s.setThread t fun th => { th with error := -RT_ERROR })
        (t := t) (by simpa using ht.object (by simp [hst])) (by simpa using hst)
      have hw : (wake (s.setThread t fun th => { th with error := -RT_ERROR }) t).suspend_thread l =
          (s.suspend_thread l).filter (· ≠ t) := by simp [wake, rt_timer_stop]
      obtain ⟨s', hs'⟩ := ih (wake_inv (t := t) h1 (by simpa using hst)) (by
        rw [hw, hl, List.filter_cons_of_neg (by simp)]
        have := List.length_filter_le (fun u => decide (u ≠ t)) rest
        rw [hl, List.length_cons] at hn
        omega)
      refine ⟨s', ?_⟩
      unfold resumeAll
      rw [hl]
      dsimp only
      rw [hres]
      exact hs'

theorem wait_returns {l : Nat} {flag : IpcFlag} {time : Int} (h : Inv s)
    (hrun : (s.threads t).stat = .RUNNING) (htime : time < (RT_TICK_MAX / 2 : Nat)) :
    ∃ s', s.waitOn l t flag time = some s' := by
  rw [waitOn_eq h (Or.inr hrun)]
  by_cases hpos : 0 < time
  · rw [if_pos hpos]
    unfold Rtos.rt_timer_start
    rw [RT_ASSERT_true (by omega)]
    exact ⟨_, rfl⟩
  · rw [if_neg hpos]
    exact ⟨_, rfl⟩

theorem rt_thread_detach_returns (h : Inv s) (hth : (s.threads t).is_thread = true)
    (hobj : (s.threads t).systemobject = true) : ∃ s', s.rt_thread_detach t = some s' ∧ Inv s' ∧
      s'.rt_current_thread = s.rt_current_thread := by
  have hret : ∃ s', s.rt_thread_detach t = some s' := by
    unfold Rtos.rt_thread_detach
    rw [RT_ASSERT_true hth, RT_ASSERT_true hobj]
    dsimp only [Option.bind_eq_bind, Option.bind_some]
    split
    · exact ⟨_, rfl⟩
    · exact ⟨_, rfl⟩
  obtain ⟨s', hs'⟩ := hret
  exact ⟨s', hs', rt_thread_detach_inv h hs'⟩

theorem rt_thread_delete_returns (h : Inv s) (hth : (s.threads t).is_thread = true)
    (hobj : (s.threads t).systemobject = false) : ∃ s', s.rt_thread_delete t = some s' ∧ Inv s' ∧
      s'.rt_current_thread = s.rt_current_thread := by
  have hret : ∃ s', s.rt_thread_delete t = some s' := by
    unfold Rtos.rt_thread_delete
    rw [RT_ASSERT_true hth, RT_ASSERT_true hobj]
    dsimp only [Option.bind_eq_bind, Option.bind_some]
    split
    · exact ⟨_, rfl⟩
    · exact ⟨_, rfl⟩
  obtain ⟨s', hs'⟩ := hret
  exact ⟨s', hs', rt_thread_delete_inv h hs'⟩

/-- Every valid call returns and keeps the invariant; a call that ends with `rt_schedule` makes it
in a state that satisfies the invariant. -/
theorem Op.run_spec (h : Inv s) (op : Op) (hv : op.Valid s) :
    ∃ s', op.run s = some s' ∧ Inv s' ∧
      (op.Schedules s → ∃ s1, Inv s1 ∧ s1.rt_schedule = some s') := by
  cases op with
  | thread_init t o p tick =>
    obtain ⟨hth, hst, hcur, hp⟩ := hv
    have hret : ∃ s', s.rt_thread_init t o p tick = some s' := by
      unfold Rtos.rt_thread_init
      rw [RT_ASSERT_true hth, RT_ASSERT_true hp]
      exact ⟨_, rfl⟩
    obtain ⟨s', hs'⟩ := hret
    exact ⟨s', hs', rt_thread_init_inv h hst hcur hs', False.elim⟩
  | startup t =>
    obtain ⟨s1, hs1, h1, hc1⟩ := startup_returns h hv
    have hrun : Op.run s (.startup t) = if s1.rt_current_thread.isSome then s1.rt_schedule
        else some s1 := by
      show s.rt_thread_startup t = _
      unfold rt_thread_startup
      rw [hs1]
      rfl
    by_cases hcur : s1.rt_current_thread.isSome
    · obtain ⟨s', hs', h'⟩ := rt_schedule_returns h1 hcur
      exact ⟨s', by rw [hrun, if_pos hcur, hs'], h', fun _ => ⟨s1, h1, hs'⟩⟩
    · refine ⟨s1, by rw [hrun, if_neg hcur], h1, fun hsch => absurd ?_ hcur⟩
      rw [hc1]
      exact hsch
  | scheduler_start =>
    obtain ⟨hcur, t, ht⟩ := hv
    obtain ⟨s', hs', h'⟩ := scheduler_start_inv h hcur ht
    exact ⟨s', hs', h', False.elim⟩
  | suspend t =>
    have hret : ∃ r, s.rt_thread_suspend t = some r := by
      have hth : (s.threads t).is_thread = true := hv
      unfold Rtos.rt_thread_suspend
      rw [RT_ASSERT_true hth]
      dsimp only [Option.bind_eq_bind, Option.bind_some]
      split
      · exact ⟨_, rfl⟩
      · rw [RT_ASSERT_true (h.thread t (by simp)).running]
        exact ⟨_, rfl⟩
    obtain ⟨⟨s', r⟩, hs'⟩ := hret
    exact ⟨s', by simp [Op.run, hs'], rt_thread_suspend_inv h hs', False.elim⟩
  | resume t =>
    have hret : ∃ r, s.rt_thread_resume t = some r := by
      have hth : (s.threads t).is_thread = true := hv
      unfold Rtos.rt_thread_resume
      rw [RT_ASSERT_true hth]
      dsimp only [Option.bind_eq_bind, Option.bind_some]
      split <;> exact ⟨_, rfl⟩
    obtain ⟨⟨s', r⟩, hs'⟩ := hret
    exact ⟨s', by simp [Op.run, hs'], rt_thread_resume_inv h hs', False.elim⟩
  | change_priority t p =>
    obtain ⟨hth, hp⟩ := hv
    have hret : ∃ s', s.rt_thread_control_priority t p = some s' := by
      unfold Rtos.rt_thread_control_priority
      rw [RT_ASSERT_true hth]
      dsimp only [Option.bind_eq_bind, Option.bind_some]
      split <;> exact ⟨_, rfl⟩
    obtain ⟨s', hs'⟩ := hret
    exact ⟨s', hs', rt_thread_control_priority_inv h hp hs', False.elim⟩
  | delete t =>
    obtain ⟨s', hs', h', -⟩ := rt_thread_delete_returns h hv.1 hv.2
    exact ⟨s', hs', h', False.elim⟩
  | detach t =>
    obtain ⟨s', hs', h', -⟩ := rt_thread_detach_returns h hv.1 hv.2
    exact ⟨s', hs', h', False.elim⟩
  | close t =>
    obtain ⟨hth, hcur⟩ := hv
    have hret : ∃ s1, s.rt_thread_control_close t = some s1 ∧ Inv s1 ∧
        s1.rt_current_thread = s.rt_current_thread := by
      unfold rt_thread_control_close
      cases hobj : (s.threads t).systemobject with
      | true => exact rt_thread_detach_returns h hth hobj
      | false => exact rt_thread_delete_returns h hth hobj
    obtain ⟨s1, hs1, h1, hc1⟩ := hret
    obtain ⟨s', hs', h'⟩ := rt_schedule_returns h1 (by rw [hc1]; exact hcur)
    exact ⟨s', Option.bind_eq_some_iff.mpr ⟨s1, hs1, hs'⟩, h', fun _ => ⟨s1, h1, hs'⟩⟩
  | yield =>
    obtain ⟨s1, hs1, h1, hc1⟩ := setYield_returns h hv
    obtain ⟨s', hs', h'⟩ := rt_schedule_returns h1 (by rw [hc1]; exact hv)
    exact ⟨s', Option.bind_eq_some_iff.mpr ⟨s1, hs1, hs'⟩, h', fun _ => ⟨s1, h1, hs'⟩⟩
  | sleep tick =>
    obtain ⟨s1, hs1, h1, hc1⟩ := startSleep_returns h hv.1 hv.2
    obtain ⟨t, hcur, -⟩ := hv.1
    obtain ⟨s', hs', h'⟩ := rt_schedule_returns h1 (by rw [hc1, hcur]; rfl)
    exact ⟨s', Option.bind_eq_some_iff.mpr ⟨s1, hs1, hs'⟩, h', fun _ => ⟨s1, h1, hs'⟩⟩
  | timeout t =>
    obtain ⟨s1, s', -, hs', hrun, h1, h'⟩ := timerExpires_returns h hv.1 hv.2
    exact ⟨s', hrun, h', fun _ => ⟨s1, h1, hs'⟩⟩
  | schedule =>
    obtain ⟨s', hs', h'⟩ := rt_schedule_returns h hv
    exact ⟨s', hs', h', fun _ => ⟨s, h, hs'⟩⟩
  | enter_critical => exact ⟨_, rfl, SchedInv.congr h rfl rfl rfl rfl rfl, False.elim⟩
  | exit_critical =>
    show ∃ s', s.rt_exit_critical = some s' ∧ _
    unfold rt_exit_critical
    dsimp only
    by_cases hnest : (s.rt_scheduler_lock_nest - 1).toInt ≤ 0
    · rw [if_pos hnest]
      have h1 : Inv { s with rt_scheduler_lock_nest := 0 } := SchedInv.congr h rfl rfl rfl rfl rfl
      by_cases hcur : s.rt_current_thread.isSome
      · rw [if_pos hcur]
        obtain ⟨s', hs', h'⟩ := rt_schedule_returns h1 hcur
        exact ⟨s', hs', h', fun _ => ⟨_, h1, hs'⟩⟩
      · rw [if_neg hcur]
        exact ⟨_, rfl, h1, fun hsch => absurd hsch.2 hcur⟩
    · rw [if_neg hnest]
      exact ⟨_, rfl, SchedInv.congr h rfl rfl rfl rfl rfl, fun hsch => absurd hsch.1 hnest⟩
  | interrupt_enter => exact ⟨_, rfl, SchedInv.congr h rfl rfl rfl rfl rfl, False.elim⟩
  | interrupt_leave => exact ⟨_, rfl, SchedInv.congr h rfl rfl rfl rfl rfl, False.elim⟩
  | wait l flag time =>
    obtain ⟨⟨t, hcur, hrun⟩, htime⟩ := hv
    obtain ⟨s', hs'⟩ : ∃ s', s.waitOn l t flag time = some s' := wait_returns h hrun htime
    exact ⟨s', Option.bind_eq_some_iff.mpr ⟨t, hcur, hs'⟩, waitOn_inv h (Or.inr hrun) hs',
      False.elim⟩
  | wakeup l =>
    obtain ⟨t, rest, hl⟩ := List.exists_cons_of_ne_nil hv
    have ht := h.thread t (by simp)
    have hst := ht.waiting l (by rw [hl]; exact List.mem_cons_self)
    have hres := rt_thread_resume_eq (ht.object (by simp [hst])) hst
    have hrun : s.rt_ipc_list_resume l = some (wake s t) := by
      unfold rt_ipc_list_resume
      rw [hl]
      dsimp only
      rw [hres]
      rfl
    exact ⟨_, hrun, wake_inv h hst, False.elim⟩
  | wakeup_all l =>
    obtain ⟨s', hs'⟩ := resumeAll_returns h (Nat.le_refl _)
    exact ⟨s', hs', resumeAll_inv h hs', False.elim⟩

end

/-! ### Runs -/

/-- The state before the first thread is started: some threads are created. -/
structure Booted (s : Rtos) : Prop where
  created : ∀ t, ((s.threads t).stat = .INIT ∧ (s.threads t).is_thread = true ∨
      (s.threads t).stat = .CLOSE ∧ (s.threads t).is_thread = false) ∧
    (s.threads t).init_priority < RT_THREAD_PRIORITY_MAX ∧
    (s.threads t).current_priority = (s.threads t).init_priority ∧
    (s.threads t).thread_timer.activated = false
  table : ∀ p, s.rt_thread_priority_table p = []
  group : s.rt_thread_ready_priority_group = 0
  defunct : s.rt_thread_defunct = []
  suspend : ∀ l, s.suspend_thread l = []
  current : s.rt_current_thread = none

theorem Booted.inv {s : Rtos} (h : Booted s) : Inv s := by
  refine ⟨fun t _ => ?_, fun t ht => by simp at ht, fun p hp => by simp [h.group, h.table], ?_, ?_, ?_,
    ?_⟩
  · obtain ⟨h1, h3, h4, h5⟩ := h.created t
    have h3' : (s.threads t).init_priority < 32 := h3
    rcases h1 with ⟨h1, h2⟩ | ⟨h1, h2⟩ <;> constructor <;>
      simp [h1, h2, h3', h4, h5, h.table, h.suspend, h.defunct, h.current, Started]
  · simp [h.table]
  · simp [h.suspend]
  · simp [h.suspend]
  · simp [h.defunct]

def schedulerMachine : Machine Rtos Op where
  start := Booted
  step s op s' := op.Valid s ∧ op.run s = some s'

theorem schedulerMachine_inv {s : Rtos} (hr : schedulerMachine.Reachable s) : Inv s := by
  apply hr.invariant
  · exact fun s h => h.inv
  · intro s op s' _ h hstep
    obtain ⟨hv, hrun⟩ := hstep
    obtain ⟨s1, hs1, h1, -⟩ := op.run_spec h hv
    obtain rfl := Option.some.inj (hs1.symm.trans hrun)
    exact h1

/-- In every reachable state the ready queues are consistent, every valid call returns, and a call
that ends with `rt_schedule` leaves a thread of the highest priority as the current one, unless the
scheduler is locked. -/
theorem scheduler_ready_queues {s : Rtos} (hr : schedulerMachine.Reachable s) :
    ReadyQueues s ∧ ∀ op : Op, op.Valid s → ∃ s', op.run s = some s' ∧
      (op.Schedules s → s'.rt_scheduler_lock_nest = 0 → TopPriority s') := by
  have h := schedulerMachine_inv hr
  refine ⟨h.readyQueues, fun op hv => ?_⟩
  obtain ⟨s', hs', -, htop⟩ := op.run_spec h hv
  refine ⟨s', hs', fun hsch hlock => ?_⟩
  obtain ⟨s1, h1, hsched⟩ := htop hsch
  exact rt_schedule_top h1 hsched hlock

/-- The kernel after `rtthread_startup` has created a thread of each priority. -/
def createdThreads : Rtos where
  threads t :=
    { is_thread := decide (t < 32), systemobject := true
      stat := if t < 32 then .INIT else .CLOSE, stat_yield := false
      error := RT_EOK, current_priority := t % 32, init_priority := t % 32, number_mask := 0
      init_tick := 5, remaining_tick := 5, thread_timer := ⟨false, 0⟩
      event_set := 0, event_info := 0 }
  rt_thread_priority_table _ := []
  rt_thread_ready_priority_group := 0
  rt_thread_defunct := []
  suspend_thread _ := []
  rt_current_thread := none
  rt_current_priority := 0
  rt_scheduler_lock_nest := 0
  port :=
    { rt_interrupt_nest := 0, rt_interrupt_from_thread := none, rt_interrupt_to_thread := none
      rt_thread_switch_interrupt_flag := false, soft_pending := false }

theorem createdThreads_booted : Booted createdThreads where
  created t := by
    have hlt : t % 32 < RT_THREAD_PRIORITY_MAX := Nat.mod_lt t (by decide)
    by_cases ht : t < 32
    · simp [createdThreads, ht, hlt]
    · simp [createdThreads, ht, hlt]
  table _ := rfl
  group := rfl
  defunct := rfl
  suspend _ := rfl
  current := rfl

theorem scheduler_ready_queues_created : ReadyQueues createdThreads ∧ ∀ op : Op,
    op.Valid createdThreads → ∃ s', op.run createdThreads = some s' ∧
      (op.Schedules createdThreads → s'.rt_scheduler_lock_nest = 0 → TopPriority s') :=
  scheduler_ready_queues (Machine.Reachable.start createdThreads_booted)

/-- Threads 1, 2 and 31 are started and the scheduler runs. -/
def startedThreads : Option Rtos := do
  let s ← createdThreads.startup 1
  let s ← s.startup 2
  let s ← s.startup 31
  s.rt_system_scheduler_start

theorem startedThreads_inv {s : Rtos} (hs : startedThreads = some s) : Inv s := by
  unfold startedThreads at hs
  obtain ⟨s1, h1, hs⟩ := Option.bind_eq_some_iff.mp hs
  obtain ⟨s2, h2, hs⟩ := Option.bind_eq_some_iff.mp hs
  obtain ⟨s3, h3, hs⟩ := Option.bind_eq_some_iff.mp hs
  have hinv := startup_inv (startup_inv (startup_inv createdThreads_booted.inv h1) h2) h3
  have hready : ((createdThreads.startup 1).bind fun s => (s.startup 2).bind fun s =>
      (s.startup 31).map fun s => (s.rt_current_thread, (s.threads 31).stat)) =
        some (none, .READY) := by
    decide +kernel
  rw [h1, Option.bind_some, h2, Option.bind_some, h3, Option.map_some] at hready
  obtain ⟨hcur, hst⟩ := Prod.mk.inj (Option.some.inj hready)
  obtain ⟨s', hs', h'⟩ := scheduler_start_inv hinv hcur hst
  obtain rfl := Option.some.inj (hs'.symm.trans hs)
  exact h'

end Ab32Vg1.Kernel
