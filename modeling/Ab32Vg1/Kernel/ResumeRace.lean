import Ab32Vg1.Kernel.Waiting

/-! `rt_thread_resume` in its parts: the check of the state, the critical section that takes the thread
out of its wait, and `rt_schedule_insert_thread`.  Other contexts run between them. -/

namespace Ab32Vg1.Kernel

open ProofKit Rtos

/-- The first critical section of `rt_thread_resume`. -/
def Rtos.resumeRemove (s : Rtos) (t : Tid) : Rtos := (s.rt_list_remove t).rt_timer_stop t

/-- Without a context between its parts `rt_thread_resume` is the check, the removal and the
insertion. -/
theorem rt_thread_resume_parts (s : Rtos) (t : Tid) : s.rt_thread_resume t = (do
    RT_ASSERT (s.threads t).is_thread
    if (s.threads t).stat ≠ .SUSPEND then return (s, -RT_ERROR)
    else return ((s.resumeRemove t).rt_schedule_insert_thread t, RT_EOK)) := rfl

/-- Where a call of `rt_thread_resume` is: it has found the thread suspended, in the wait of that number
if it is still in one, or it has taken the thread out. -/
inductive ResumePc where
  | idle
  | checked (wait : Option Nat)
  | removed
  deriving DecidableEq, Repr

/-- A thread, and the contexts that resume it.  The waits of the thread are numbered: `wait` is the one
it is in, until something takes it out, and `waits` counts them.  The numbers are not in the code. -/
structure ResumeSystem where
  os : Rtos
  thread : Tid
  pc : Nat → ResumePc
  wait : Option Nat
  waits : Nat

inductive ResumeStep where
  | check (context : Nat)
  | remove (context : Nat)
  | insert (context : Nat)
  | timeout
  | suspend (l : Nat) (flag : IpcFlag) (time : Int)
  | sleep (tick : Nat)
  | schedule
  | other (os : Rtos)

namespace ResumeSystem

def setPc (c : ResumeSystem) (context : Nat) (pc : ResumePc) : ResumeSystem :=
  { c with pc := Function.update c.pc context pc }

/-- The thread is in a new wait. -/
def enters (c : ResumeSystem) (os : Rtos) : ResumeSystem :=
  { c with os := os, wait := some c.waits, waits := c.waits + 1 }

def step (c : ResumeSystem) : ResumeStep → Option ResumeSystem
  | .check context =>
    if c.pc context = .idle then do
      RT_ASSERT (c.os.threads c.thread).is_thread
      if (c.os.threads c.thread).stat ≠ .SUSPEND then return c
      else return c.setPc context (.checked c.wait)
    else none
  | .remove context =>
    match c.pc context with
    | .checked _ =>
      some { c.setPc context .removed with os := c.os.resumeRemove c.thread, wait := none }
    | _ => none
  | .insert context =>
    if c.pc context = .removed then
      some { c.setPc context .idle with os := c.os.rt_schedule_insert_thread c.thread }
    else none
  | .timeout =>
    if (c.os.threads c.thread).thread_timer.activated = true then
      (c.os.timerExpires c.thread).map fun os => { c with os := os, wait := none }
    else none
  | .suspend l flag time =>
    if Runs c.os c.thread then (c.os.waitOn l c.thread flag time).map c.enters else none
  | .sleep tick =>
    if Runs c.os c.thread then (c.os.startSleep tick).map c.enters else none
  | .schedule => c.os.rt_schedule.map fun os => { c with os := os }
  | .other _ => none

/-- What the rest of the system may do: anything that neither resumes nor suspends the thread. -/
structure Beside (c : ResumeSystem) (os : Rtos) : Prop where
  inv : Inv os
  suspended : (os.threads c.thread).stat = .SUSPEND ↔ (c.os.threads c.thread).stat = .SUSPEND
  lists : ∀ l, c.thread ∈ os.suspend_thread l ↔ c.thread ∈ c.os.suspend_thread l
  timer : (os.threads c.thread).thread_timer.activated = true →
    (c.os.threads c.thread).thread_timer.activated = true

/-- Nobody resumes the thread. -/
structure Fresh (c : ResumeSystem) : Prop where
  inv : Inv c.os
  pc : ∀ context, c.pc context = .idle
  wait : (c.os.threads c.thread).stat = .SUSPEND → c.wait.isSome

/-- The thread is in no list of ready or waiting threads. -/
def Free (c : ResumeSystem) : Prop :=
  (∀ p, c.thread ∉ c.os.rt_thread_priority_table p) ∧ ∀ l, c.thread ∉ c.os.suspend_thread l

end ResumeSystem

def resumeMachine : Machine ResumeSystem ResumeStep where
  start := ResumeSystem.Fresh
  step c l c' := c.step l = some c' ∨ ∃ os, l = .other os ∧ c' = { c with os := os } ∧ c.Beside os

namespace ResumeSystem

/-- The ready lists are consistent; whoever takes the thread out of a list takes it out of the wait that
was checked, and not of a ready list; whoever inserts it inserts a thread that is in no list. -/
structure ResumeContract (c : ResumeSystem) : Prop where
  once : ReadyQueues c.os
  taken : ∀ context wait, c.pc context = .checked wait →
    (∃ n, wait = some n ∧ c.wait = some n) ∧ ∀ p, c.thread ∉ c.os.rt_thread_priority_table p
  inserted : ∀ context, c.pc context = .removed → c.Free

/-- A resume passes its check only when no other one is under way, and the timer of the thread does not
expire between the check of a resume and its removal. -/
def Alone (c : ResumeSystem) : ResumeStep → Prop
  | .check _ => (c.os.threads c.thread).stat = .SUSPEND → ∀ context, c.pc context = .idle
  | .timeout => ∀ context wait, c.pc context ≠ .checked wait
  | _ => True

end ResumeSystem

/-! ### The parts of `rt_thread_resume` -/

section

variable {s s' : Rtos} {t : Tid}

/-- The thread that is taken out stays suspended, in no list. -/
theorem resumeRemove_inv (h : Inv s) (hst : (s.threads t).stat = .SUSPEND) : Inv (s.resumeRemove t) := by
  have ht := h.thread t (by simp)
  have hfloat := (h.rt_list_remove (t := t) (by simp [hst])).setThread fun th =>
    { th with thread_timer := { th.thread_timer with activated := false } }
  apply hfloat.settle <;> simp only [setThread_self, list_remove_threads, hst]
  · exact ht.priority_lt
  · exact ht.init_lt
  · intro hstarted
    exact ht.mask (Or.inr (Or.inr hst))
  · simp
  · simp
  · simp
  · simp
  · intro _
    exact ht.object (by simp [hst])

theorem resumeRemove_stat : ((s.resumeRemove t).threads t).stat = (s.threads t).stat := by
  simp [resumeRemove, rt_timer_stop]

theorem resumeRemove_suspend (l : Nat) : t ∉ (s.resumeRemove t).suspend_thread l := by
  simp [resumeRemove, rt_timer_stop]

theorem resumeRemove_timer :
    ((s.resumeRemove t).threads t).thread_timer.activated = false := by
  simp [resumeRemove, rt_timer_stop]

/-- A suspended thread in no list becomes ready, or goes on running. -/
theorem insert_inv (h : Inv s) (hst : (s.threads t).stat = .SUSPEND)
    (hlist : ∀ l, t ∉ s.suspend_thread l)
    (htimer : (s.threads t).thread_timer.activated = false) :
    Inv (s.rt_schedule_insert_thread t) := by
  have ht := h.thread t (by simp)
  have hfloat : SchedInv s (some t) s.rt_current_thread :=
    h.unsettle ⟨fun p hp => ?_, hlist, fun hd => ?_⟩
  · show SchedInv _ none (s.rt_schedule_insert_thread t).rt_current_thread
    rw [insert_current]
    refine hfloat.rt_schedule_insert_thread ht.priority_lt ht.init_lt
      (ht.mask (Or.inr (Or.inr hst))) Iff.rfl htimer (ht.object (by simp [hst]))
  · have := (ht.ready p hp).1
    rw [hst] at this
    cases this
  · have := (ht.defunct hd).1
    rw [hst] at this
    cases this

/-- The threads after a switch, and whether the old one is queued. -/
theorem switchTo_threads {from_thread to_thread : Tid} {p : Nat} {need : Bool} (hne : to_thread ≠ from_thread) (u : Tid) :
    (s.switchTo from_thread to_thread p need).threads u =
      { s.threads u with
        stat := if u = to_thread then .RUNNING
          else if need = true ∧ u = from_thread then .READY else (s.threads u).stat } := by
  unfold switchTo contextSwitch
  by_cases huto : u = to_thread
  · subst huto
    cases need <;> simp [insert_threads_of_ne _ from_thread hne]
  · cases need with
    | false => simp [huto, setThread_of_ne]
    | true =>
      by_cases hufrom : u = from_thread
      · subst hufrom
        simp [huto, setThread_of_ne, insert_threads_self, hne]
      · simp [huto, hufrom, setThread_of_ne, insert_threads_of_ne]

theorem switchTo_stat {from_thread to_thread : Tid} {p : Nat} {need : Bool}
    (hne : to_thread ≠ from_thread) (u : Tid) :
    ((s.switchTo from_thread to_thread p need).threads u).stat =
      if u = to_thread then .RUNNING
      else if need = true ∧ u = from_thread then .READY else (s.threads u).stat := by
  rw [switchTo_threads hne]

/-- `rt_schedule` neither suspends a thread nor resumes one. -/
theorem rt_schedule_suspended (h : Inv s) (hs : s.rt_schedule = some s') (u : Tid) :
    (s'.threads u).stat = .SUSPEND ↔ (s.threads u).stat = .SUSPEND := by
  rcases rt_schedule_cases hs with ⟨rfl, -⟩ | ⟨next, p, cur, -, hgroup, hnext, hcur, hcase⟩
  · exact Iff.rfl
  obtain ⟨next', rest, p', -, hcons, hget, -⟩ := h.highest hgroup
  obtain ⟨rfl, rfl⟩ := Prod.mk.inj (Option.some.inj (hnext.symm.trans hget))
  have hready := ((h.thread next (by simp)).ready p (by rw [hcons]; exact List.mem_cons_self)).1
  have hne : next ≠ cur := by
    rintro rfl
    exact ((h.thread next (by simp)).current hcur).1 hready
  have hyield : ∀ v, ((s.setThread cur fun th => { th with stat_yield := false }).threads v).stat =
      (s.threads v).stat := by
    intro v
    rw [setThread_threads]
    split
    · next heq => rw [heq]
    · rfl
  rcases hcase with ⟨hrun, -, rfl⟩ | ⟨hrun, -, rfl⟩ | ⟨-, rfl⟩
  · rw [finishSchedule, if_neg (by simp), setThread_threads]
    split
    · next heq => simp [heq, hrun]
    · rw [remove_threads, hyield]
  · rw [finishSchedule, if_pos hne, switchTo_stat hne, hyield]
    split
    · next heq => simp [heq, hready]
    · split
      · next heq => simp [heq.2, hrun]
      · exact Iff.rfl
  · rw [finishSchedule, if_pos hne, switchTo_stat hne]
    split
    · next heq => simp [heq, hready]
    · simp

/-- A thread whose timer has expired is not suspended. -/
theorem timerExpires_awake (h : Inv s) (hs : s.timerExpires t = some s') :
    (s'.threads t).stat ≠ .SUSPEND := by
  obtain ⟨s1, h1, hs⟩ := Option.bind_eq_some_iff.mp hs
  rw [ne_eq, rt_schedule_suspended (expire_timedOut h h1).inv hs]
  obtain ⟨-, h1⟩ := RT_ASSERT_bind_eq_some.mp h1
  obtain ⟨-, h1⟩ := RT_ASSERT_bind_eq_some.mp h1
  obtain rfl := Option.some.inj h1
  rw [insert_threads_self]
  dsimp only
  split <;> simp

end

/-! ### The invariant -/

namespace ResumeSystem

variable {c c' : ResumeSystem}

/-- At most one resume is under way.  While it is, the thread stays suspended: in the wait that was
checked, and then in no list. -/
inductive Phase (c : ResumeSystem) : Prop where
  | idle (hpc : ∀ k, c.pc k = .idle)
      (hwait : (c.os.threads c.thread).stat = .SUSPEND → c.wait.isSome)
  | checked (context n : Nat) (hpc : c.pc = Function.update (fun _ => .idle) context (.checked (some n)))
      (hst : (c.os.threads c.thread).stat = .SUSPEND) (hwait : c.wait = some n)
  | removed (context : Nat) (hpc : c.pc = Function.update (fun _ => .idle) context .removed)
      (hst : (c.os.threads c.thread).stat = .SUSPEND) (hlist : ∀ l, c.thread ∉ c.os.suspend_thread l)
      (htimer : (c.os.threads c.thread).thread_timer.activated = false)

theorem Phase.contract (h : Inv c.os) (hp : Phase c) : ResumeContract c := by
  have hready : (c.os.threads c.thread).stat = .SUSPEND → ∀ p, c.thread ∉ c.os.rt_thread_priority_table p :=
    fun hst p hmem => by
      have := ((h.thread c.thread (by simp)).ready p hmem).1
      rw [hst] at this
      cases this
  cases hp with
  | idle hpc hwait =>
    exact ⟨h.readyQueues, fun k w hk => by simp [hpc] at hk, fun k hk => by simp [hpc] at hk⟩
  | checked context n hpc hst hwait =>
    refine ⟨h.readyQueues, fun k w hk => ?_, fun k hk => ?_⟩
    · rw [hpc, Function.update_apply] at hk
      split at hk
      · cases hk
        exact ⟨⟨n, rfl, hwait⟩, hready hst⟩
      · cases hk
    · rw [hpc, Function.update_apply] at hk
      split at hk <;> cases hk
  | removed context hpc hst hlist htimer =>
    refine ⟨h.readyQueues, fun k w hk => ?_, fun k _ => ⟨hready hst, hlist⟩⟩
    rw [hpc, Function.update_apply] at hk
    split at hk <;> cases hk

theorem Phase.beside {os : Rtos} (hp : Phase c) (hb : c.Beside os) : Phase { c with os := os } := by
  cases hp with
  | idle hpc hwait => exact .idle hpc fun hst => hwait (hb.suspended.mp hst)
  | checked context n hpc hst hwait => exact .checked context n hpc (hb.suspended.mpr hst) hwait
  | removed context hpc hst hlist htimer =>
    refine .removed context hpc (hb.suspended.mpr hst) (fun l hl => hlist l ((hb.lists l).mp hl)) ?_
    by_contra hact
    have := hb.timer (by simpa using hact)
    rw [htimer] at this
    cases this

theorem rt_schedule_beside {os : Rtos} (h : Inv c.os) (hs : c.os.rt_schedule = some os) :
    c.Beside os := by
  obtain ⟨hl, ht⟩ := rt_schedule_waits h hs
  exact ⟨rt_schedule_inv h hs, rt_schedule_suspended h hs c.thread, fun l => by rw [hl],
    (ht c.thread).timer⟩

/-- A thread that runs is not being resumed. -/
theorem Phase.enters {os : Rtos} (hp : Phase c) (hrun : Runs c.os c.thread) : Phase (c.enters os) := by
  have hno : (c.os.threads c.thread).stat ≠ .SUSPEND := by simp [hrun.2]
  cases hp with
  | idle hpc _ => exact .idle hpc fun _ => rfl
  | checked context n hpc hst hwait => exact absurd hst hno
  | removed context hpc hst hlist htimer => exact absurd hst hno

theorem startSleep_inv {s s' : Rtos} {tick : Nat} (h : Inv s) {t : Tid} (hrun : Runs s t)
    (hs : s.startSleep tick = some s') : Inv s' := by
  unfold startSleep at hs
  rw [hrun.1] at hs
  simp only [Option.bind_eq_bind, Option.bind_some, rt_thread_suspend_eq h (Or.inr hrun.2)] at hs
  exact rt_timer_start_inv (putToSleep_inv h (Or.inr hrun.2)) (by rw [putToSleep_self]) hs

theorem step_phase {l : ResumeStep} (h : Inv c.os) (hp : Phase c) (ha : c.Alone l)
    (hs : c.step l = some c') : Inv c'.os ∧ Phase c' := by
  cases l with
  | check context =>
    obtain ⟨-, hs⟩ := Option.ite_none_right_eq_some.mp hs
    obtain ⟨-, hs⟩ := RT_ASSERT_bind_eq_some.mp hs
    by_cases hst : (c.os.threads c.thread).stat = .SUSPEND
    · rw [if_neg (not_not.mpr hst)] at hs
      obtain rfl := Option.some.inj hs
      have hidle := ha hst
      refine ⟨h, ?_⟩
      cases hp with
      | idle hpc hwait =>
        obtain ⟨n, hn⟩ := Option.isSome_iff_exists.mp (hwait hst)
        refine .checked context n ?_ hst hn
        show Function.update c.pc context (.checked c.wait) = _
        rw [hn, funext hpc]
      | checked other n hpc _ _ =>
        have := hidle other
        rw [hpc, Function.update_self] at this
        cases this
      | removed other hpc _ _ _ =>
        have := hidle other
        rw [hpc, Function.update_self] at this
        cases this
    · rw [if_pos hst] at hs
      obtain rfl := Option.some.inj hs
      exact ⟨h, hp⟩
  | remove context =>
    simp only [step] at hs
    split at hs
    · next w hpcw =>
      obtain rfl := Option.some.inj hs
      cases hp with
      | idle hpc _ =>
        rw [hpc] at hpcw
        cases hpcw
      | checked other n hpc hst hwait =>
        rw [hpc, Function.update_apply] at hpcw
        split at hpcw
        · next heq =>
          subst heq
          refine ⟨resumeRemove_inv h hst, .removed context ?_ (resumeRemove_stat.trans hst)
            (fun l => resumeRemove_suspend l) resumeRemove_timer⟩
          show Function.update c.pc context .removed = _
          rw [hpc, Function.update_idem]
        · cases hpcw
      | removed other hpc _ _ _ =>
        rw [hpc, Function.update_apply] at hpcw
        split at hpcw <;> cases hpcw
    · cases hs
  | insert context =>
    obtain ⟨hpcr, hs⟩ := Option.ite_none_right_eq_some.mp hs
    obtain rfl := Option.some.inj hs
    cases hp with
    | idle hpc _ =>
      rw [hpc] at hpcr
      cases hpcr
    | checked other n hpc _ _ =>
      rw [hpc, Function.update_apply] at hpcr
      split at hpcr <;> cases hpcr
    | removed other hpc hst hlist htimer =>
      rw [hpc, Function.update_apply] at hpcr
      split at hpcr
      · next heq =>
        subst heq
        refine ⟨insert_inv h hst hlist htimer, .idle (fun k => ?_) fun hsus => ?_⟩
        · show Function.update c.pc context .idle k = _
          rw [hpc, Function.update_idem, Function.update_apply]
          split <;> rfl
        · have hsus : ((c.os.rt_schedule_insert_thread c.thread).threads c.thread).stat = .SUSPEND := hsus
          rw [insert_threads_self] at hsus
          dsimp only at hsus
          split at hsus <;> cases hsus
      · cases hpcr
  | timeout =>
    obtain ⟨hact, hs⟩ := Option.ite_none_right_eq_some.mp hs
    obtain ⟨os, hos, rfl⟩ := Option.map_eq_some_iff.mp hs
    refine ⟨(timerExpires_timedOut h hos).inv, ?_⟩
    cases hp with
    | idle hpc _ => exact .idle hpc fun hst => absurd hst (timerExpires_awake h hos)
    | checked context n hpc _ _ => exact absurd (by rw [hpc, Function.update_self]) (ha context (some n))
    | removed context hpc hst hlist htimer =>
      rw [htimer] at hact
      cases hact
  | suspend l flag time =>
    obtain ⟨hrun, hs⟩ := Option.ite_none_right_eq_some.mp hs
    obtain ⟨os, hos, rfl⟩ := Option.map_eq_some_iff.mp hs
    exact ⟨waitOn_inv h (Or.inr hrun.2) hos, hp.enters hrun⟩
  | sleep tick =>
    obtain ⟨hrun, hs⟩ := Option.ite_none_right_eq_some.mp hs
    obtain ⟨os, hos, rfl⟩ := Option.map_eq_some_iff.mp hs
    exact ⟨startSleep_inv h hrun hos, hp.enters hrun⟩
  | schedule =>
    obtain ⟨os, hos, rfl⟩ := Option.map_eq_some_iff.mp hs
    have hb := rt_schedule_beside h hos
    exact ⟨hb.inv, hp.beside hb⟩
  | other os => cases hs

end ResumeSystem

open ResumeSystem

/-- In every run in which nothing else readies the thread between the parts of a resume, each resume takes
the thread out of the wait in which it found it, and inserts it once. -/
theorem resume_once {c : ResumeSystem} (hr : (resumeMachine.restrict Alone).Reachable c) :
    ResumeContract c := by
  have hphase : Inv c.os ∧ Phase c := by
    apply hr.invariant
    · exact fun c h => ⟨h.inv, .idle h.pc h.wait⟩
    · rintro c l c' - ⟨h, hp⟩ ⟨ha, hs | ⟨os, -, rfl, hb⟩⟩
      · exact step_phase h hp ha hs
      · exact ⟨hb.inv, hp.beside hb⟩
  exact hphase.2.contract hphase.1

/-- Thread 1, which nobody resumes. -/
def thread1 (os : Rtos) : ResumeSystem :=
  { os := os, thread := 1, pc := fun _ => .idle, wait := none, waits := 0 }

theorem thread1_fresh {os : Rtos} (hos : startedThreads = some os)
    (hst : (os.threads 1).stat ≠ .SUSPEND) : (thread1 os).Fresh :=
  ⟨startedThreads_inv hos, fun _ => rfl, fun h => absurd h hst⟩

/-- Thread 1 waits, and a resume has taken it out of its wait. -/
def resumedOnce : List ResumeStep := [.suspend 0 .fifo 10, .schedule, .check 0, .remove 0]

theorem resume_once_removed : ∃ os, startedThreads = some os ∧
    ∃ c, Machine.runs ResumeSystem.step (thread1 os) resumedOnce = some c ∧ c.pc 0 = .removed ∧
      ResumeContract c := by
  have hrun : ∃ os, startedThreads = some os ∧ (os.threads 1).stat ≠ .SUSPEND ∧
      ∃ c, Machine.runs ResumeSystem.step (thread1 os) resumedOnce = some c ∧ c.pc 0 = .removed := by
    decide +kernel
  obtain ⟨os, hos, hst, c, hc, hpc⟩ := hrun
  refine ⟨os, hos, c, hc, hpc, resume_once ?_⟩
  obtain ⟨c1, h1, hc⟩ := Option.bind_eq_some_iff.mp hc
  obtain ⟨c2, h2, hc⟩ := Option.bind_eq_some_iff.mp hc
  obtain ⟨c3, h3, hc⟩ := Option.bind_eq_some_iff.mp hc
  obtain ⟨c4, h4, hc⟩ := Option.bind_eq_some_iff.mp hc
  obtain rfl := Option.some.inj hc
  have hr0 : (resumeMachine.restrict Alone).Reachable (thread1 os) :=
    Machine.Reachable.start (thread1_fresh hos hst)
  have hr1 : (resumeMachine.restrict Alone).Reachable c1 :=
    Machine.Reachable.next (l := .suspend 0 .fifo 10) hr0 ⟨trivial, Or.inl h1⟩
  have hr2 : (resumeMachine.restrict Alone).Reachable c2 :=
    Machine.Reachable.next (l := .schedule) hr1 ⟨trivial, Or.inl h2⟩
  have hidle : c2.Alone (.check 0) := ?_
  · have hr3 : (resumeMachine.restrict Alone).Reachable c3 := hr2.next ⟨hidle, Or.inl h3⟩
    exact Machine.Reachable.next (l := .remove 0) hr3 ⟨trivial, Or.inl h4⟩
  intro _ k
  -- the first two steps leave the resumes alone
  obtain ⟨-, h1⟩ := Option.ite_none_right_eq_some.mp h1
  obtain ⟨os1, -, rfl⟩ := Option.map_eq_some_iff.mp h1
  obtain ⟨os2, -, rfl⟩ := Option.map_eq_some_iff.mp h2
  rfl

/-- Thread 1 waits; between the parts of a resume an interrupt resumes it too. -/
def resumedTwice : List ResumeStep :=
  [.suspend 0 .fifo 10, .schedule, .check 0, .remove 0, .check 1, .remove 1, .insert 1, .insert 0]

theorem resume_once_fails : ¬∀ c, resumeMachine.Reachable c → ResumeContract c := by
  have hrun : ∃ os, startedThreads = some os ∧ (os.threads 1).stat ≠ .SUSPEND ∧
      ∃ c, Machine.runs ResumeSystem.step (thread1 os) resumedTwice = some c ∧ c.thread = 1 ∧
        c.os.rt_thread_priority_table 1 = [1, 1] := by
    decide +kernel
  obtain ⟨os, hos, hst, c, hc, hthread, htable⟩ := hrun
  intro h
  have hr : resumeMachine.Reachable c :=
    (Machine.Reachable.start (thread1_fresh hos hst)).runs (fun _ _ _ hs => Or.inl hs) hc
  have hcount := ((h c hr).once.once 1 1 (by simp [htable])).1
  rw [htable] at hcount
  exact absurd hcount (by decide)

end Ab32Vg1.Kernel
