import Ab32Vg1.Kernel.Priority
import Ab32Vg1.Kernel.ResumeRace
import Mathlib.Data.List.Rotate

/-! The time slices of threads of one priority: `rt_tick_increase` and `rt_schedule` while threads of
higher priority wake and sleep. -/

namespace Ab32Vg1.Kernel

open ProofKit Rtos

/-- `rt_tick_increase` up to its call of `rt_timer_check`. -/
def Rtos.rt_tick_increase (s : Rtos) : Option Rtos := do
  let thread ← s.rt_current_thread
  let s := s.setThread thread fun th => { th with remaining_tick := sub32 th.remaining_tick 1 }
  if (s.threads thread).remaining_tick = 0 then
    (s.setThread thread fun th =>
      { th with remaining_tick := th.init_tick, stat_yield := true }).rt_schedule
  else some s

/-- The threads of one priority that stay ready, in the order in which they are to run.  `last` is the
one that ran last and `used` the ticks of its turn; `turns` are the turns before, with their ticks.  These
are not in the code. -/
structure RrSystem where
  os : Rtos
  priority : Nat
  order : List Tid
  last : Tid
  used : Nat
  turns : List (Tid × Nat)

inductive RrStep where
  | tick
  | schedule
  | wake (t : Tid)
  | suspend (t : Tid)
  | other (os : Rtos)

instance (l : RrStep) : Decidable (l = .schedule) :=
  match l with
  | .schedule => isTrue rfl
  | .tick => isFalse nofun
  | .wake _ => isFalse nofun
  | .suspend _ => isFalse nofun
  | .other _ => isFalse nofun

namespace RrSystem

/-- The system after a change of the kernel: a turn ends when another thread of the priority runs. -/
def observe (c : RrSystem) (os : Rtos) : RrSystem :=
  match os.rt_current_thread with
  | some t =>
    if (os.threads t).current_priority = c.priority ∧ t ≠ c.last then
      { c with os := os, last := t, used := 0, turns := c.turns ++ [(c.last, c.used)] }
    else { c with os := os }
  | none => { c with os := os }

/-- A tick is used by the thread that runs. -/
def counted (c : RrSystem) : RrSystem :=
  { c with used := if c.os.rt_current_thread = some c.last then c.used + 1 else c.used }

def step (c : RrSystem) : RrStep → Option RrSystem
  | .tick => c.os.rt_tick_increase.map c.counted.observe
  | .schedule => c.os.rt_schedule.map c.observe
  | .wake t =>
    if (c.os.threads t).current_priority < c.priority then
      (c.os.rt_thread_resume t).map fun r => c.observe r.1
    else none
  | .suspend t =>
    if (c.os.threads t).current_priority < c.priority then
      (c.os.rt_thread_suspend t).map fun r => c.observe r.1
    else none
  | .other _ => none

/-- What the rest of the system may do: anything that leaves the threads of the group, their queue and the
running thread alone. -/
structure Beside (c : RrSystem) (os : Rtos) : Prop where
  inv : Inv os
  unlocked : os.rt_scheduler_lock_nest = 0
  current : os.rt_current_thread = c.os.rt_current_thread
  table : os.rt_thread_priority_table c.priority = c.os.rt_thread_priority_table c.priority
  member : ∀ t ∈ c.order, os.threads t = c.os.threads t
  running : ∀ t, c.os.rt_current_thread = some t →
    (os.threads t).current_priority = (c.os.threads t).current_priority

/-- Every thread of the group has a whole time slice.  Its first thread runs and the others are ready, or
all are ready and a thread of higher priority runs. -/
structure Fresh (c : RrSystem) : Prop where
  inv : Inv c.os
  unlocked : c.os.rt_scheduler_lock_nest = 0
  first : c.order.head? = some c.last
  member : ∀ t ∈ c.order, (c.os.threads t).current_priority = c.priority ∧
    (c.os.threads t).remaining_tick = (c.os.threads t).init_tick ∧
    (c.os.threads t).init_tick < 2 ^ 32 ∧ (c.os.threads t).stat_yield = false
  current : (Runs c.os c.last ∧ c.os.rt_thread_priority_table c.priority = c.order.tail) ∨
    (∃ cur, c.os.rt_current_thread = some cur ∧ (c.os.threads cur).current_priority < c.priority) ∧
      c.os.rt_thread_priority_table c.priority = c.order
  used : c.used = 0
  turns : c.turns = []

end RrSystem

def rrMachine : Machine RrSystem RrStep where
  start := RrSystem.Fresh
  step c l c' := c.step l = some c' ∨ ∃ os, l = .other os ∧ c' = c.observe os ∧ c.Beside os

namespace RrSystem

/-- The turns follow the order, round and round, each of them took a whole time slice, and the turn that
is not over takes no more than that when there is another thread. -/
structure RoundRobin (c : RrSystem) : Prop where
  turn : ∀ i t n, c.turns[i]? = some (t, n) →
    c.order[i % c.order.length]? = some t ∧ n = (c.os.threads t).init_tick
  last : c.order[c.turns.length % c.order.length]? = some c.last
  used : 2 ≤ c.order.length → c.used ≤ (c.os.threads c.last).init_tick

/-- The time slices are not 0, and no thread of higher priority replaces a thread of the group before its
time slice ends while another one of the group is ready. -/
def Unbroken (c : RrSystem) (l : RrStep) : Prop :=
  (∀ t ∈ c.order, 0 < (c.os.threads t).init_tick) ∧
  (l = .schedule → c.os.rt_current_thread = some c.last → 2 ≤ c.order.length →
    ∀ p < c.priority, c.os.rt_thread_priority_table p = [])

instance (c : RrSystem) (l : RrStep) : Decidable (c.Unbroken l) :=
  inferInstanceAs (Decidable (_ ∧ _))

def unbrokenStep (c : RrSystem) (l : RrStep) : Option RrSystem :=
  if c.Unbroken l then c.step l else none

end RrSystem

/-! ### What `rt_schedule` does to the queues -/

section

variable {s s' : Rtos} {cur : Tid}

/-- The time slice and the priority of a thread are kept. -/
structure SameSlice (th th' : Thread) : Prop where
  current_priority : th'.current_priority = th.current_priority
  remaining_tick : th'.remaining_tick = th.remaining_tick
  init_tick : th'.init_tick = th.init_tick

theorem SameSlice.refl (th : Thread) : SameSlice th th := ⟨rfl, rfl, rfl⟩

theorem SameSlice.trans {th th' th'' : Thread} (h : SameSlice th th') (h' : SameSlice th' th'') :
    SameSlice th th'' :=
  ⟨h'.current_priority.trans h.current_priority, h'.remaining_tick.trans h.remaining_tick,
    h'.init_tick.trans h.init_tick⟩

theorem setThread_slice {f : Thread → Thread} {t : Tid} (hf : ∀ th, SameSlice th (f th)) (u : Tid) :
    SameSlice (s.threads u) ((s.setThread t f).threads u) := by
  rw [setThread_threads]
  split
  · next heq =>
    rw [heq]
    exact hf _
  · exact SameSlice.refl _

theorem switchTo_table {to_thread : Tid} {p : Nat} {need : Bool} (hne : to_thread ≠ cur) (q : Nat) :
    (s.switchTo cur to_thread p need).rt_thread_priority_table q =
      (if need = true ∧ q = (s.threads cur).current_priority then
        s.rt_thread_priority_table q ++ [cur] else s.rt_thread_priority_table q).filter (· ≠ to_thread) := by
  unfold switchTo contextSwitch
  cases need with
  | false => simp [rt_schedule_remove_thread, rt_list_remove]
  | true =>
    have hcur : ({ s with rt_current_priority := p % 256, rt_current_thread := some to_thread } :
        Rtos).rt_current_thread ≠ some cur := fun heq => hne (Option.some.inj heq)
    simp only [if_true, insert_of_ne_current hcur]
    simp only [rt_schedule_remove_thread, rt_list_remove, setThread_table, true_and, Function.update_apply]
    split
    · next heq => rw [heq]
    · rfl

theorem switchTo_lock {to_thread : Tid} {p : Nat} {need : Bool} :
    (s.switchTo cur to_thread p need).rt_scheduler_lock_nest = s.rt_scheduler_lock_nest := by
  unfold switchTo contextSwitch
  cases need with
  | false => rfl
  | true =>
    simp only [if_true, setThread_lock]
    exact insert_lock _ cur

/-- What `rt_schedule` does when a thread is ready: `next` is the first thread of the highest priority.
The running thread stays, or goes to the end of its queue, or it has left the queues before. -/
structure Chosen (s : Rtos) (cur next : Tid) (p : Nat) (s' : Rtos) : Prop where
  ready : (s.threads next).stat = .READY
  head : (s.rt_thread_priority_table p).head? = some next
  above : ∀ q < p, s.rt_thread_priority_table q = []
  priority : (s.threads next).current_priority = p
  slice : ∀ u, SameSlice (s.threads u) (s'.threads u)
  yield : ∀ u, (s'.threads u).stat_yield = true → (s.threads u).stat_yield = true
  unlocked : s'.rt_scheduler_lock_nest = 0
  change : ((s.threads cur).stat = .RUNNING ∧ keepsRunning (s.threads cur) p ∧ Runs s' cur ∧
      s'.rt_thread_priority_table = s.rt_thread_priority_table) ∨
    ((s.threads cur).stat = .RUNNING ∧ ¬keepsRunning (s.threads cur) p ∧ Runs s' next ∧
      (s'.threads cur).stat_yield = false ∧
      ∀ q, s'.rt_thread_priority_table q = (if q = (s.threads cur).current_priority then
        s.rt_thread_priority_table q ++ [cur] else s.rt_thread_priority_table q).filter (· ≠ next)) ∨
    ((s.threads cur).stat ≠ .RUNNING ∧ Runs s' next ∧
      ∀ q, s'.rt_thread_priority_table q = (s.rt_thread_priority_table q).filter (· ≠ next))

theorem rt_schedule_chosen (h : Inv s) (hlock : s.rt_scheduler_lock_nest = 0)
    (hcur : s.rt_current_thread = some cur) (hs : s.rt_schedule = some s') :
    (s' = s ∧ ∀ p < 32, s.rt_thread_priority_table p = []) ∨ ∃ next p, Chosen s cur next p s' := by
  rcases rt_schedule_cases hs with ⟨rfl, hor⟩ | ⟨next, p, cur', -, hgroup, hnext, hcur', hcase⟩
  · refine Or.inl ⟨rfl, fun p hp => ?_⟩
    have hbit := (h.group p hp).not.mp
    rw [hor.resolve_left (not_not.mpr hlock)] at hbit
    simpa using hbit
  obtain rfl := Option.some.inj (hcur.symm.trans hcur')
  obtain ⟨next', rest, p', -, hcons, hget, habove⟩ := h.highest hgroup
  obtain ⟨rfl, rfl⟩ := Prod.mk.inj (Option.some.inj (hnext.symm.trans hget))
  obtain ⟨hready, hprio⟩ := (h.thread next (by simp)).ready p (by rw [hcons]; exact List.mem_cons_self)
  have hne : next ≠ cur := by
    rintro rfl
    exact ((h.thread next (by simp)).current hcur).1 hready
  have hhead : (s.rt_thread_priority_table p).head? = some next := by rw [hcons, List.head?_cons]
  let s0 := s.setThread cur fun th => { th with stat_yield := false }
  have hslice0 : ∀ u, SameSlice (s.threads u) (s0.threads u) := setThread_slice fun th => ⟨rfl, rfl, rfl⟩
  have hyield0 : ∀ u, (s0.threads u).stat_yield = true → (s.threads u).stat_yield = true := by
    intro u hu
    by_cases huc : u = cur
    · subst huc
      simp [s0] at hu
    · rwa [setThread_of_ne _ cur _ huc] at hu
  refine Or.inr ⟨next, p, ?_⟩
  rcases hcase with ⟨hrun, hkeep, rfl⟩ | ⟨hrun, hkeep, rfl⟩ | ⟨hrun, rfl⟩
  · rw [finishSchedule, if_neg (by simp)]
    refine ⟨hready, hhead, habove, hprio, fun u => ?_, fun u hu => ?_, hlock, Or.inl ⟨hrun, hkeep, ?_, ?_⟩⟩
    · by_cases huc : u = cur
      · subst huc
        rw [setThread_self, remove_threads, setThread_self]
        exact ⟨rfl, rfl, rfl⟩
      · rw [setThread_of_ne _ cur _ huc, remove_threads, setThread_of_ne _ cur _ huc]
        exact SameSlice.refl _
    · refine hyield0 u ?_
      rw [setThread_threads] at hu
      split at hu
      · next heq => rwa [heq]
      · exact hu
    · exact ⟨hcur, by rw [setThread_self]⟩
    · funext q
      exact h.filter_table fun hr => by simp [hrun] at hr
  · rw [finishSchedule, if_pos hne]
    refine ⟨hready, hhead, habove, hprio, fun u => ?_, fun u hu => ?_, ?_,
      Or.inr (Or.inl ⟨hrun, hkeep, ⟨switchTo_current, ?_⟩, ?_, fun q => ?_⟩)⟩
    · rw [switchTo_threads hne]
      exact (hslice0 u).trans ⟨rfl, rfl, rfl⟩
    · rw [switchTo_threads hne] at hu
      exact hyield0 u hu
    · rw [switchTo_lock]
      exact hlock
    · rw [switchTo_threads hne, if_pos rfl]
    · rw [switchTo_threads hne]
      simp
    · rw [switchTo_table hne]
      simp
  · rw [finishSchedule, if_pos hne]
    refine ⟨hready, hhead, habove, hprio, fun u => ?_, fun u hu => ?_, ?_,
      Or.inr (Or.inr ⟨hrun, ⟨switchTo_current, ?_⟩, fun q => ?_⟩)⟩
    · rw [switchTo_threads hne]
      exact ⟨rfl, rfl, rfl⟩
    · rwa [switchTo_threads hne] at hu
    · rw [switchTo_lock]
      exact hlock
    · rw [switchTo_threads hne, if_pos rfl]
    · rw [switchTo_table hne]
      simp

/-! ### The queue of the group -/

variable {last next : Tid} {rest : List Tid} {priority p : Nat}

/-- A thread of higher priority has the processor. -/
def Higher (s : Rtos) (priority : Nat) : Prop :=
  ∃ cur, s.rt_current_thread = some cur ∧ (s.threads cur).current_priority < priority

theorem Chosen.next_ne (hc : Chosen s cur next p s') (hrun : (s.threads cur).stat = .RUNNING) :
    next ≠ cur := by
  rintro rfl
  have := hc.ready
  rw [hrun] at this
  cases this

/-- The thread that is chosen comes before every ready thread. -/
theorem Chosen.le (hc : Chosen s cur next p s') (hne : s.rt_thread_priority_table priority ≠ []) :
    p ≤ priority := by
  by_contra hlt
  exact hne (hc.above priority (by omega))

/-- A queue that the chosen thread is not in. -/
theorem Chosen.filter (h : Inv s) (hc : Chosen s cur next p s') (hne : p ≠ priority) :
    (s.rt_thread_priority_table priority).filter (· ≠ next) = s.rt_thread_priority_table priority :=
  h.filter_table fun _ => by rw [hc.priority]; exact hne

/-- The queue that the chosen thread was the first of. -/
theorem Chosen.filter_head (h : Inv s) (hc : Chosen s cur next p s') {t : Tid} {us : List Tid}
    (htable : s.rt_thread_priority_table p = t :: us) : t = next ∧ us.filter (· ≠ next) = us := by
  have hhead := hc.head
  rw [htable] at hhead
  obtain rfl := Option.some.inj hhead
  have hnd := h.table_nodup p
  rw [htable] at hnd
  exact ⟨rfl, filter_of_not_mem (List.nodup_cons.mp hnd).1⟩

/-- While a thread of higher priority has the processor, `rt_schedule` keeps the queue, or its first
thread runs. -/
theorem rt_schedule_higher (h : Inv s) (hlock : s.rt_scheduler_lock_nest = 0) (hp : priority < 32)
    (hhigher : Higher s priority) {us : List Tid}
    (htable : s.rt_thread_priority_table priority = next :: us) (hs : s.rt_schedule = some s') :
    (Higher s' priority ∧ s'.rt_thread_priority_table priority = next :: us) ∨
      (Runs s' next ∧ s'.rt_thread_priority_table priority = us) := by
  obtain ⟨cur, hcur, hlt⟩ := hhigher
  rcases rt_schedule_chosen h hlock hcur hs with ⟨-, hnone⟩ | ⟨first, p, hc⟩
  · rw [hnone priority hp] at htable
    cases htable
  have hle : p ≤ priority := hc.le (by simp [htable])
  have hprio : ∀ u, (s'.threads u).current_priority = (s.threads u).current_priority :=
    fun u => (hc.slice u).current_priority
  rcases hc.change with ⟨-, -, hrun, htab⟩ | ⟨hrun, hkeep, hrun', -, htab⟩ | ⟨-, hrun', htab⟩
  · exact Or.inl ⟨⟨cur, hrun.1, by rw [hprio]; exact hlt⟩, by rw [htab]; exact htable⟩
  · have hle : p ≤ (s.threads cur).current_priority := by
      by_contra hgt
      exact hkeep (Or.inl (by omega))
    refine Or.inl ⟨⟨first, hrun'.1, ?_⟩, ?_⟩
    · rw [hprio, hc.priority]
      omega
    · rw [htab, if_neg (by omega), hc.filter h (by omega)]
      exact htable
  · by_cases hpp : p = priority
    · subst hpp
      obtain ⟨rfl, hus⟩ := hc.filter_head h htable
      refine Or.inr ⟨hrun', ?_⟩
      rw [htab, htable, List.filter_cons_of_neg (by simp), hus]
    · refine Or.inl ⟨⟨first, hrun'.1, ?_⟩, ?_⟩
      · rw [hprio, hc.priority]
        omega
      · rw [htab, hc.filter h hpp]
        exact htable

/-- A thread of the group whose time slice is not over goes on running, unless a thread of higher priority
is ready; then it is put at the end of the queue. -/
theorem rt_schedule_running (h : Inv s) (hlock : s.rt_scheduler_lock_nest = 0) (hrun : Runs s last)
    (hprio : (s.threads last).current_priority = priority)
    (hyield : s.rt_thread_priority_table priority ≠ [] → (s.threads last).stat_yield = false)
    (hs : s.rt_schedule = some s') :
    (Runs s' last ∧ s'.rt_thread_priority_table priority = s.rt_thread_priority_table priority) ∨
      (Higher s' priority ∧ (∃ p < priority, s.rt_thread_priority_table p ≠ []) ∧
        s'.rt_thread_priority_table priority = s.rt_thread_priority_table priority ++ [last]) := by
  rcases rt_schedule_chosen h hlock hrun.1 hs with ⟨rfl, -⟩ | ⟨first, p, hc⟩
  · exact Or.inl ⟨hrun, rfl⟩
  rcases hc.change with ⟨-, -, hrun', htab⟩ | ⟨-, hkeep, hrun', -, htab⟩ | ⟨hno, -⟩
  · exact Or.inl ⟨hrun', by rw [htab]⟩
  · have hlt : p < priority := by
      by_contra hge
      by_cases heq : p = priority
      · subst heq
        have hne : s.rt_thread_priority_table p ≠ [] := by
          intro hnil
          have := hc.head
          rw [hnil] at this
          cases this
        exact hkeep (Or.inr ⟨hprio, hyield hne⟩)
      · exact hkeep (Or.inl (by omega))
    have hne : s.rt_thread_priority_table p ≠ [] := by
      intro hnil
      have := hc.head
      rw [hnil] at this
      cases this
    refine Or.inr ⟨⟨first, hrun'.1, ?_⟩, ⟨p, hlt, hne⟩, ?_⟩
    · rw [(hc.slice first).current_priority, hc.priority]
      exact hlt
    · rw [htab, if_pos hprio.symm, List.filter_append, hc.filter h (by omega),
        List.filter_cons_of_pos (by simpa using (hc.next_ne hrun.2).symm), List.filter_nil]
  · exact absurd hrun.2 hno

/-- A thread of the group whose time slice is over is put at the end of the queue, and the first thread of
the queue or one of higher priority runs. -/
theorem rt_schedule_expired (h : Inv s) (hlock : s.rt_scheduler_lock_nest = 0) (hp : priority < 32)
    (hrun : Runs s last) (hprio : (s.threads last).current_priority = priority)
    (hyield : (s.threads last).stat_yield = true) {us : List Tid}
    (htable : s.rt_thread_priority_table priority = next :: us) (hs : s.rt_schedule = some s') :
    (s'.threads last).stat_yield = false ∧
      ((Runs s' next ∧ s'.rt_thread_priority_table priority = us ++ [last]) ∨
        (Higher s' priority ∧ s'.rt_thread_priority_table priority = next :: us ++ [last])) := by
  rcases rt_schedule_chosen h hlock hrun.1 hs with ⟨-, hnone⟩ | ⟨first, p, hc⟩
  · rw [hnone priority hp] at htable
    cases htable
  have hle : p ≤ priority := hc.le (by simp [htable])
  have hne := hc.next_ne hrun.2
  rcases hc.change with ⟨-, hkeep, -⟩ | ⟨-, -, hrun', hyield', htab⟩ | ⟨hno, -⟩
  · rcases hkeep with hlt | ⟨-, hno⟩
    · omega
    · rw [hyield] at hno
      cases hno
  · refine ⟨hyield', ?_⟩
    have hlast : [last].filter (· ≠ first) = [last] := by
      rw [List.filter_cons_of_pos (by simpa using hne.symm), List.filter_nil]
    by_cases hpp : p = priority
    · subst hpp
      obtain ⟨rfl, hus⟩ := hc.filter_head h htable
      refine Or.inl ⟨hrun', ?_⟩
      rw [htab, if_pos hprio.symm, List.filter_append, htable, List.filter_cons_of_neg (by simp), hus,
        hlast]
    · refine Or.inr ⟨⟨first, hrun'.1, ?_⟩, ?_⟩
      · rw [(hc.slice first).current_priority, hc.priority]
        omega
      · rw [htab, if_pos hprio.symm, List.filter_append, hc.filter h hpp, htable, hlast]
  · exact absurd hrun.2 hno

theorem rt_schedule_slices (h : Inv s) (hlock : s.rt_scheduler_lock_nest = 0)
    (hcur : s.rt_current_thread = some cur) (hs : s.rt_schedule = some s') :
    s'.rt_scheduler_lock_nest = 0 ∧ ∀ u, SameSlice (s.threads u) (s'.threads u) ∧
      ((s'.threads u).stat_yield = true → (s.threads u).stat_yield = true) := by
  rcases rt_schedule_chosen h hlock hcur hs with ⟨rfl, -⟩ | ⟨first, p, hc⟩
  · exact ⟨hlock, fun u => ⟨SameSlice.refl _, id⟩⟩
  · exact ⟨hc.unlocked, fun u => ⟨hc.slice u, hc.yield u⟩⟩

/-- A tick, with the current thread. -/
theorem rt_tick_increase_eq (hcur : s.rt_current_thread = some cur) : s.rt_tick_increase =
    if sub32 (s.threads cur).remaining_tick 1 = 0 then
      (s.setThread cur fun th =>
        { th with remaining_tick := th.init_tick, stat_yield := true }).rt_schedule
    else some (s.setThread cur fun th => { th with remaining_tick := sub32 th.remaining_tick 1 }) := by
  have hleft : ((s.setThread cur fun th =>
      { th with remaining_tick := sub32 th.remaining_tick 1 }).threads cur).remaining_tick =
      sub32 (s.threads cur).remaining_tick 1 := by rw [setThread_self]
  have hset : (s.setThread cur fun th =>
      { th with remaining_tick := sub32 th.remaining_tick 1 }).setThread cur (fun th =>
        { th with remaining_tick := th.init_tick, stat_yield := true }) =
      s.setThread cur fun th => { th with remaining_tick := th.init_tick, stat_yield := true } := by
    simp only [setThread, Function.update_self, Function.update_idem]
  unfold rt_tick_increase
  rw [hcur]
  simp only [Option.bind_eq_bind, Option.bind_some]
  rw [hleft, hset]

end

/-! ### The invariant -/

namespace RrSystem

/-- Where the group is.  The thread whose turn it is runs; or it is the first of the queue; or its turn is
over and it is the last of the queue.  In the last two cases a thread of higher priority runs. -/
inductive Place (s : Rtos) (priority : Nat) (last : Tid) (rest : List Tid) (used : Nat) : Prop where
  | runs (hrun : Runs s last) (htable : s.rt_thread_priority_table priority = rest)
      (hless : rest ≠ [] → used < (s.threads last).init_tick)
  | away (hhigher : Higher s priority) (htable : s.rt_thread_priority_table priority = last :: rest)
      (hless : rest ≠ [] → used < (s.threads last).init_tick)
  | due (hhigher : Higher s priority) (htable : s.rt_thread_priority_table priority = rest ++ [last])
      (hne : rest ≠ []) (hused : used = (s.threads last).init_tick)

/-- The threads of the group between two steps; `rest` are those that wait for their turn. -/
structure Members (c : RrSystem) (s : Rtos) (rest : List Tid) : Prop where
  priority : ∀ t ∈ c.order, (s.threads t).current_priority = c.priority
  word : ∀ t ∈ c.order, (s.threads t).init_tick < 2 ^ 32
  whole : ∀ t ∈ c.order, t ≠ c.last → (s.threads t).remaining_tick = (s.threads t).init_tick
  yield : rest ≠ [] → ∀ t ∈ c.order, (s.threads t).stat_yield = false
  init : ∀ t ∈ c.order, (s.threads t).init_tick = (c.os.threads t).init_tick

structure RrInv (c : RrSystem) (rest : List Tid) : Prop where
  inv : Inv c.os
  unlocked : c.os.rt_scheduler_lock_nest = 0
  members : Members c c.os rest
  rotated : c.order.rotate c.turns.length = c.last :: rest
  turn : ∀ i t n, c.turns[i]? = some (t, n) →
    c.order[i % c.order.length]? = some t ∧ n = (c.os.threads t).init_tick
  slice : (c.os.threads c.last).remaining_tick + c.used % (c.os.threads c.last).init_tick =
    (c.os.threads c.last).init_tick
  place : Place c.os c.priority c.last rest c.used

variable {c c' : RrSystem} {os : Rtos} {rest us : List Tid} {next : Tid}

theorem getElem?_of_rotated {order : List Tid} {k : Nat} {t : Tid} {rest : List Tid}
    (h : order.rotate k = t :: rest) : order[k % order.length]? = some t := by
  have hpos : 0 < order.length := by
    have hlen := congrArg List.length h
    rw [List.length_rotate, List.length_cons] at hlen
    omega
  rw [← List.head?_rotate (Nat.mod_lt k hpos), List.rotate_mod, h, List.head?_cons]

theorem RrInv.mem_order (h : RrInv c rest) {t : Tid} : t ∈ c.order ↔ t = c.last ∨ t ∈ rest := by
  rw [← List.mem_rotate (n := c.turns.length), h.rotated, List.mem_cons]

theorem RrInv.roundRobin (h : RrInv c rest) : RoundRobin c := by
  refine ⟨h.turn, getElem?_of_rotated h.rotated, fun hlen => ?_⟩
  have hne : rest ≠ [] := by
    rintro rfl
    have := congrArg List.length h.rotated
    rw [List.length_rotate, List.length_singleton] at this
    omega
  cases h.place with
  | runs _ _ hless => exact Nat.le_of_lt (hless hne)
  | away _ _ hless => exact Nat.le_of_lt (hless hne)
  | due _ _ _ hused => exact Nat.le_of_eq hused

theorem observe_same (h : ∀ t, os.rt_current_thread = some t →
    (os.threads t).current_priority = c.priority → t = c.last) : c.observe os = { c with os := os } := by
  unfold observe
  split
  · next t ht => exact if_neg fun hc => hc.2 (h t ht hc.1)
  · rfl

theorem observe_next (hcur : os.rt_current_thread = some next)
    (hprio : (os.threads next).current_priority = c.priority) (hne : next ≠ c.last) :
    c.observe os =
      { c with os := os, last := next, used := 0, turns := c.turns ++ [(c.last, c.used)] } := by
  unfold observe
  rw [hcur]
  exact if_pos ⟨hprio, hne⟩

/-- A thread of higher priority is not in the group. -/
theorem observe_higher (h : Higher os c.priority) : c.observe os = { c with os := os } := by
  obtain ⟨cur, hcur, hlt⟩ := h
  refine observe_same fun t ht hprio => ?_
  obtain rfl := Option.some.inj (hcur.symm.trans ht)
  omega

theorem observe_runs (h : Runs os c.last) : c.observe os = { c with os := os } :=
  observe_same fun _ ht _ => Option.some.inj (ht.symm.trans h.1)

/-- The next thread begins its turn. -/
theorem turn_over {used : Nat} (hinv : Inv os) (hlock : os.rt_scheduler_lock_nest = 0)
    (hm : Members c os (next :: us)) (hrot : c.order.rotate c.turns.length = c.last :: next :: us)
    (hturn : ∀ i t n, c.turns[i]? = some (t, n) →
      c.order[i % c.order.length]? = some t ∧ n = (c.os.threads t).init_tick)
    (hleft : (os.threads c.last).remaining_tick = (os.threads c.last).init_tick)
    (hused : used = (c.os.threads c.last).init_tick) (hpos : ∀ t ∈ c.order, 0 < (c.os.threads t).init_tick)
    (hne : next ≠ c.last) (hrun : Runs os next)
    (htable : os.rt_thread_priority_table c.priority = us ++ [c.last]) :
    RrInv (observe { c with used := used } os) (us ++ [c.last]) := by
  have hlast : c.last ∈ c.order := by
    rw [← List.mem_rotate (n := c.turns.length), hrot]
    exact List.mem_cons_self
  have hnext : next ∈ c.order := by
    rw [← List.mem_rotate (n := c.turns.length), hrot]
    simp
  have hprio : (os.threads next).current_priority = c.priority := hm.priority next hnext
  rw [observe_next (c := { c with used := used }) hrun.1 hprio hne]
  have hinit : ∀ t ∈ c.order, (os.threads t).init_tick = (c.os.threads t).init_tick := hm.init
  refine ⟨hinv, hlock, ⟨hm.priority, hm.word, fun t ht _ => ?_, fun _ => hm.yield (by simp),
    fun _ _ => rfl⟩, ?_, fun i t n hi => ?_, ?_, .runs hrun htable fun _ => ?_⟩
  · by_cases htl : t = c.last
    · rw [htl]
      exact hleft
    · exact hm.whole t ht htl
  · show c.order.rotate (c.turns ++ [(c.last, used)]).length = _
    rw [List.length_append, List.length_singleton, ← List.rotate_rotate, hrot, List.rotate_cons_succ,
      List.rotate_zero]
    rfl
  · have hi : (c.turns ++ [(c.last, used)])[i]? = some (t, n) := hi
    show c.order[i % c.order.length]? = some t ∧ n = (os.threads t).init_tick
    by_cases hlt : i < c.turns.length
    · rw [List.getElem?_append_left hlt] at hi
      obtain ⟨h1, h2⟩ := hturn i t n hi
      exact ⟨h1, h2.trans (hinit t (List.mem_of_getElem? h1)).symm⟩
    · have hi' : i = c.turns.length := by
        have := (List.getElem?_eq_some_iff.mp hi).1
        rw [List.length_append, List.length_singleton] at this
        omega
      subst hi'
      rw [List.getElem?_append_right (Nat.le_refl _), Nat.sub_self, List.getElem?_cons_zero] at hi
      obtain ⟨rfl, rfl⟩ := Prod.mk.inj (Option.some.inj hi)
      exact ⟨getElem?_of_rotated hrot, hused.trans (hinit _ hlast).symm⟩
  · show (os.threads next).remaining_tick + 0 % (os.threads next).init_tick = _
    rw [Nat.zero_mod, Nat.add_zero]
    exact hm.whole next hnext hne
  · show 0 < (os.threads next).init_tick
    rw [hinit next hnext]
    exact hpos next hnext

/-- The same turn goes on. -/
theorem turn_same {used : Nat} (hinv : Inv os) (hlock : os.rt_scheduler_lock_nest = 0)
    (hm : Members c os rest) (hrot : c.order.rotate c.turns.length = c.last :: rest)
    (hturn : ∀ i t n, c.turns[i]? = some (t, n) →
      c.order[i % c.order.length]? = some t ∧ n = (c.os.threads t).init_tick)
    (hslice : (os.threads c.last).remaining_tick + used % (os.threads c.last).init_tick =
      (os.threads c.last).init_tick)
    (hplace : Place os c.priority c.last rest used) :
    RrInv (observe { c with used := used } os) rest := by
  have hsame : observe { c with used := used } os = { c with used := used, os := os } := by
    cases hplace with
    | runs hrun _ _ => exact observe_runs (c := { c with used := used }) hrun
    | away hh _ _ => exact observe_higher (c := { c with used := used }) hh
    | due hh _ _ _ => exact observe_higher (c := { c with used := used }) hh
  rw [hsame]
  refine ⟨hinv, hlock, ⟨hm.priority, hm.word, hm.whole, hm.yield, fun _ _ => rfl⟩, hrot,
    fun i t n hi => ?_, hslice, hplace⟩
  obtain ⟨h1, h2⟩ := hturn i t n hi
  exact ⟨h1, h2.trans (hm.init t (List.mem_of_getElem? h1)).symm⟩

theorem Members.of_slices (hm : Members c c.os rest)
    (h : ∀ u, SameSlice (c.os.threads u) (os.threads u) ∧
      ((os.threads u).stat_yield = true → (c.os.threads u).stat_yield = true)) : Members c os rest := by
  refine ⟨fun t ht => ?_, fun t ht => ?_, fun t ht hne => ?_, fun hne t ht => ?_, fun t _ => (h t).1.init_tick⟩
  · rw [(h t).1.current_priority]
    exact hm.priority t ht
  · rw [(h t).1.init_tick]
    exact hm.word t ht
  · rw [(h t).1.remaining_tick, (h t).1.init_tick]
    exact hm.whole t ht hne
  · have := hm.yield hne t ht
    by_contra hy
    rw [(h t).2 (by simpa using hy)] at this
    cases this

theorem RrInv.schedule (h : RrInv c rest) (hpos : ∀ t ∈ c.order, 0 < (c.os.threads t).init_tick)
    (hkeep : c.os.rt_current_thread = some c.last → rest ≠ [] →
      ∀ p < c.priority, c.os.rt_thread_priority_table p = [])
    (hs : c.os.rt_schedule = some os) : ∃ rest', RrInv (c.observe os) rest' := by
  obtain ⟨hinv, hlock, hm, hrot, hturn, hslice, hplace⟩ := h
  have hlast : c.last ∈ c.order := by
    rw [← List.mem_rotate (n := c.turns.length), hrot]
    exact List.mem_cons_self
  have hp : c.priority < 32 := by
    rw [← hm.priority c.last hlast]
    exact (hinv.thread c.last (by simp)).priority_lt
  have hinv' := rt_schedule_inv hinv hs
  have hcur : ∃ cur, c.os.rt_current_thread = some cur := by
    cases hplace with
    | runs hrun _ _ => exact ⟨c.last, hrun.1⟩
    | away hh _ _ => exact ⟨_, hh.choose_spec.1⟩
    | due hh _ _ _ => exact ⟨_, hh.choose_spec.1⟩
  obtain ⟨cur, hcur⟩ := hcur
  obtain ⟨hlock', hslices⟩ := rt_schedule_slices hinv hlock hcur hs
  have hm' := hm.of_slices hslices
  have hslice' : (os.threads c.last).remaining_tick + c.used % (os.threads c.last).init_tick =
      (os.threads c.last).init_tick := by
    rw [(hslices c.last).1.remaining_tick, (hslices c.last).1.init_tick]
    exact hslice
  have hinit := (hslices c.last).1.init_tick
  cases hplace with
  | runs hrun htable hless =>
    refine ⟨rest, turn_same hinv' hlock' hm' hrot hturn hslice' ?_⟩
    rcases rt_schedule_running hinv hlock hrun (hm.priority c.last hlast)
      (fun hne => hm.yield (by rwa [htable] at hne) c.last hlast) hs with ⟨hrun', htab⟩ | ⟨hh, ⟨p, hlt, hne⟩, htab⟩
    · exact .runs hrun' (htab.trans htable) (by rwa [hinit])
    · -- only a thread that is alone in its group is replaced
      have hnil : rest = [] := by
        by_contra hrest
        exact hne (hkeep hrun.1 hrest p hlt)
      subst hnil
      rw [htable] at htab
      exact .away hh htab (by simp)
  | away hh htable hless =>
    refine ⟨rest, turn_same hinv' hlock' hm' hrot hturn hslice' ?_⟩
    rcases rt_schedule_higher hinv hlock hp hh htable hs with ⟨hh', htab⟩ | ⟨hrun', htab⟩
    · exact .away hh' htab (by rwa [hinit])
    · exact .runs hrun' htab (by rwa [hinit])
  | due hh htable hne hused =>
    obtain ⟨next, us, rfl⟩ := List.exists_cons_of_ne_nil hne
    rcases rt_schedule_higher hinv hlock hp hh htable hs with ⟨hh', htab⟩ | ⟨hrun', htab⟩
    · exact ⟨_, turn_same hinv' hlock' hm' hrot hturn hslice' (.due hh' htab hne (by rwa [hinit]))⟩
    · have hnd := hinv.table_nodup c.priority
      rw [htable] at hnd
      have hne' : next ≠ c.last := fun heq => (List.nodup_cons.mp hnd).1 (by simp [heq])
      refine ⟨_, turn_over hinv' hlock' hm' hrot hturn ?_ hused hpos hne' hrun' htab⟩
      rw [hused, hinit, Nat.mod_self, Nat.add_zero] at hslice'
      rw [hslice', hinit]

/-- What leaves the group alone. -/
theorem RrInv.beside (h : RrInv c rest) (hb : c.Beside os) : RrInv (c.observe os) rest := by
  obtain ⟨hinv, hlock, hm, hrot, hturn, hslice, hplace⟩ := h
  have hlast : c.last ∈ c.order := by
    rw [← List.mem_rotate (n := c.turns.length), hrot]
    exact List.mem_cons_self
  have hh : Higher c.os c.priority → Higher os c.priority := by
    rintro ⟨cur, hcur, hlt⟩
    exact ⟨cur, hb.current.trans hcur, by rw [hb.running cur hcur]; exact hlt⟩
  refine turn_same hb.inv hb.unlocked ⟨fun t ht => ?_, fun t ht => ?_, fun t ht hne => ?_,
    fun hne t ht => ?_, fun t ht => ?_⟩ hrot hturn ?_ ?_
  · rw [hb.member t ht]
    exact hm.priority t ht
  · rw [hb.member t ht]
    exact hm.word t ht
  · rw [hb.member t ht]
    exact hm.whole t ht hne
  · rw [hb.member t ht]
    exact hm.yield hne t ht
  · rw [hb.member t ht]
  · rw [hb.member _ hlast]
    exact hslice
  · cases hplace with
    | runs hrun htable hless =>
      refine .runs ⟨hb.current.trans hrun.1, ?_⟩ (hb.table.trans htable) ?_
      · rw [hb.member _ hlast]
        exact hrun.2
      · rwa [hb.member _ hlast]
    | away hhigher htable hless =>
      refine .away (hh hhigher) (hb.table.trans htable) ?_
      rwa [hb.member _ hlast]
    | due hhigher htable hne hused =>
      refine .due (hh hhigher) (hb.table.trans htable) hne ?_
      rwa [hb.member _ hlast]

/-- A change of the time slice of a thread keeps the invariant of the scheduler. -/
theorem setSlice_inv {s : Rtos} {t : Tid} {f : Thread → Thread} (h : Inv s)
    (hf : ∀ th, ∃ remaining yield, f th = { th with remaining_tick := remaining, stat_yield := yield }) :
    Inv (s.setThread t f) := by
  obtain ⟨remaining, yield, hft⟩ := hf (s.threads t)
  refine SchedInv.touch h ?_ ?_ ?_ ?_ ?_ ?_ <;> rw [hft]
  exact (h.thread t (by simp)).timer

/-- A tick of a thread of higher priority. -/
theorem RrInv.tick_higher (h : RrInv c rest) (hpos : ∀ t ∈ c.order, 0 < (c.os.threads t).init_tick)
    (hh : Higher c.os c.priority) (hs : c.os.rt_tick_increase = some os) :
    ∃ rest', RrInv (c.counted.observe os) rest' := by
  obtain ⟨cur, hcur, hlt⟩ := hh
  have hmember : ∀ t ∈ c.order, t ≠ cur := by
    rintro t ht rfl
    have := h.members.priority t ht
    omega
  have hlast : c.last ∈ c.order := h.mem_order.mpr (Or.inl rfl)
  have hcounted : c.counted = c := by
    have hne : c.os.rt_current_thread ≠ some c.last := fun heq =>
      hmember _ hlast (Option.some.inj (heq.symm.trans hcur))
    rw [counted, if_neg hne]
  have hbeside : ∀ f : Thread → Thread,
      (∀ th, ∃ remaining yield, f th = { th with remaining_tick := remaining, stat_yield := yield }) →
      c.Beside (c.os.setThread cur f) := by
    intro f hf
    refine ⟨setSlice_inv h.inv hf, h.unlocked, rfl, rfl, fun t ht => setThread_of_ne _ cur _ (hmember t ht),
      fun t ht => ?_⟩
    obtain rfl := Option.some.inj (hcur.symm.trans ht)
    obtain ⟨remaining, yield, hft⟩ := hf (c.os.threads cur)
    rw [setThread_self, hft]
  rw [rt_tick_increase_eq hcur] at hs
  rw [hcounted]
  by_cases hz : sub32 (c.os.threads cur).remaining_tick 1 = 0
  · rw [if_pos hz] at hs
    have hb := hbeside _ fun th => ⟨th.init_tick, true, rfl⟩
    have h0 := h.beside hb
    have hh0 : Higher (c.os.setThread cur fun th =>
        { th with remaining_tick := th.init_tick, stat_yield := true }) c.priority :=
      ⟨cur, hcur, by rw [hb.running cur hcur]; exact hlt⟩
    rw [observe_higher hh0] at h0
    refine h0.schedule (fun t ht => ?_) (fun heq => ?_) hs
    · dsimp only
      rw [hb.member t ht]
      exact hpos t ht
    · exact absurd (Option.some.inj (hcur.symm.trans heq)).symm (hmember _ hlast)
  · rw [if_neg hz] at hs
    obtain rfl := Option.some.inj hs
    exact ⟨rest, h.beside (hbeside _ fun th => ⟨sub32 th.remaining_tick 1, th.stat_yield, rfl⟩)⟩

theorem mod_succ_eq {n m : Nat} (h : n % m + 1 < m) : (n + 1) % m = n % m + 1 := by
  rw [Nat.add_mod, Nat.mod_eq_of_lt (show 1 < m by omega), Nat.mod_eq_of_lt h]

theorem mod_succ_wrap {n m : Nat} (h : n % m + 1 = m) : (n + 1) % m = 0 := by
  rw [← Nat.mod_add_div n m, Nat.add_right_comm, h, Nat.add_mul_mod_self_left, Nat.mod_self]

/-- A tick of the thread whose turn it is. -/
theorem RrInv.tick_running (h : RrInv c rest) (hpos : ∀ t ∈ c.order, 0 < (c.os.threads t).init_tick)
    (hrun : Runs c.os c.last) (htable : c.os.rt_thread_priority_table c.priority = rest)
    (hless : rest ≠ [] → c.used < (c.os.threads c.last).init_tick)
    (hs : c.os.rt_tick_increase = some os) : ∃ rest', RrInv (c.counted.observe os) rest' := by
  obtain ⟨hinv, hlock, hm, hrot, hturn, hslice, -⟩ := h
  have hlast : c.last ∈ c.order := by
    rw [← List.mem_rotate (n := c.turns.length), hrot]
    exact List.mem_cons_self
  have hcounted : c.counted = { c with used := c.used + 1 } := by rw [counted, if_pos hrun.1]
  have hp : c.priority < 32 := by
    rw [← hm.priority c.last hlast]
    exact (hinv.thread c.last (by simp)).priority_lt
  have hword := hm.word _ hlast
  have hpos' := hpos _ hlast
  have hlt := Nat.mod_lt c.used hpos'
  have hsub : sub32 (c.os.threads c.last).remaining_tick 1 = (c.os.threads c.last).remaining_tick - 1 := by
    rw [sub32]
    omega
  rw [rt_tick_increase_eq hrun.1, hsub] at hs
  rw [hcounted]
  by_cases hz : (c.os.threads c.last).remaining_tick - 1 = 0
  · -- the time slice is over
    rw [if_pos hz] at hs
    have hwrap : c.used % (c.os.threads c.last).init_tick + 1 = (c.os.threads c.last).init_tick := by omega
    let f : Thread → Thread := fun th => { th with remaining_tick := th.init_tick, stat_yield := true }
    have hinv0 : Inv (c.os.setThread c.last f) := setSlice_inv hinv fun th => ⟨th.init_tick, true, rfl⟩
    have hself : (c.os.setThread c.last f).threads c.last = f (c.os.threads c.last) := setThread_self ..
    have hrun0 : Runs (c.os.setThread c.last f) c.last := ⟨hrun.1, by rw [hself]; exact hrun.2⟩
    obtain ⟨hlock', hslices⟩ := rt_schedule_slices hinv0 hlock hrun.1 hs
    have hinit : ∀ t, (os.threads t).init_tick = (c.os.threads t).init_tick := by
      intro t
      rw [(hslices t).1.init_tick, setThread_threads]
      split
      · next heq => rw [heq]
      · rfl
    have hleft : (os.threads c.last).remaining_tick = (os.threads c.last).init_tick := by
      rw [(hslices c.last).1.remaining_tick, (hslices c.last).1.init_tick, hself]
    have hprio0 : ∀ t ∈ c.order, ((c.os.setThread c.last f).threads t).current_priority = c.priority := by
      intro t ht
      rw [setThread_threads]
      split
      · exact hm.priority c.last hlast
      · exact hm.priority t ht
    have hwhole : ∀ t ∈ c.order, t ≠ c.last → (os.threads t).remaining_tick = (os.threads t).init_tick := by
      intro t ht hne
      rw [(hslices t).1.remaining_tick, (hslices t).1.init_tick, setThread_of_ne _ c.last _ hne]
      exact hm.whole t ht hne
    have hmembers : (rest ≠ [] → (os.threads c.last).stat_yield = false) → Members c os rest := by
      intro hy
      refine ⟨fun t ht => (hslices t).1.current_priority.trans (hprio0 t ht),
        fun t ht => by rw [hinit]; exact hm.word t ht, hwhole, fun hne t ht => ?_, fun t _ => hinit t⟩
      by_cases htl : t = c.last
      · rw [htl]
        exact hy hne
      · have hyt := (hslices t).2
        rw [setThread_of_ne _ c.last _ htl] at hyt
        by_contra hc
        have := hyt (by simpa using hc)
        rw [hm.yield hne t ht] at this
        cases this
    have hinv' := rt_schedule_inv hinv0 hs
    have hslice' : (os.threads c.last).remaining_tick + (c.used + 1) % (os.threads c.last).init_tick =
        (os.threads c.last).init_tick := by
      rw [hleft, hinit, mod_succ_wrap hwrap, Nat.add_zero]
    cases rest with
    | nil =>
      refine ⟨[], turn_same hinv' hlock' (hmembers (by simp)) hrot hturn hslice' ?_⟩
      rcases rt_schedule_running hinv0 hlock hrun0 (hprio0 _ hlast) (fun hne => absurd htable hne) hs with
        ⟨hrun', htab⟩ | ⟨hh, -, htab⟩
      · exact .runs hrun' (htab.trans htable) (by simp)
      · have htab' : os.rt_thread_priority_table c.priority = [] ++ [c.last] := by
          rw [htab]
          exact congrArg (· ++ [c.last]) htable
        exact .away hh htab' (by simp)
    | cons next us =>
      have hused : c.used + 1 = (c.os.threads c.last).init_tick := by
        have := Nat.mod_eq_of_lt (hless (by simp))
        omega
      obtain ⟨hy, hcase⟩ := rt_schedule_expired hinv0 hlock hp hrun0 (hprio0 _ hlast) (by rw [hself])
        htable hs
      rcases hcase with ⟨hrun', htab⟩ | ⟨hh, htab⟩
      · have hready : next ∈ c.os.rt_thread_priority_table c.priority := by simp [htable]
        have hne : next ≠ c.last := by
          intro heq
          have := ((hinv.thread next (by simp)).ready _ hready).1
          rw [heq, hrun.2] at this
          cases this
        exact ⟨_, turn_over hinv' hlock' (hmembers fun _ => hy) hrot hturn hleft hused hpos hne hrun' htab⟩
      · exact ⟨_, turn_same hinv' hlock' (hmembers fun _ => hy) hrot hturn hslice'
          (.due hh htab (by simp) (by rw [hinit]; exact hused))⟩
  · rw [if_neg hz] at hs
    obtain rfl := Option.some.inj hs
    let f : Thread → Thread := fun th => { th with remaining_tick := sub32 th.remaining_tick 1 }
    have hself : (c.os.setThread c.last f).threads c.last = f (c.os.threads c.last) := setThread_self ..
    have hne : ∀ t, t ≠ c.last → (c.os.setThread c.last f).threads t = c.os.threads t :=
      fun t ht => setThread_of_ne _ c.last _ ht
    have hsame : ∀ t, ((c.os.setThread c.last f).threads t).current_priority =
        (c.os.threads t).current_priority ∧ ((c.os.setThread c.last f).threads t).init_tick =
        (c.os.threads t).init_tick ∧ ((c.os.setThread c.last f).threads t).stat_yield =
        (c.os.threads t).stat_yield := by
      intro t
      by_cases htl : t = c.last
      · rw [htl, hself]
        exact ⟨rfl, rfl, rfl⟩
      · rw [hne t htl]
        exact ⟨rfl, rfl, rfl⟩
    have hstep : c.used % (c.os.threads c.last).init_tick + 1 < (c.os.threads c.last).init_tick := by omega
    refine ⟨rest, turn_same (setSlice_inv hinv fun th => ⟨sub32 th.remaining_tick 1, th.stat_yield, rfl⟩)
      hlock ⟨fun t ht => (hsame t).1.trans (hm.priority t ht), fun t ht => ?_, fun t ht htl => ?_,
        fun hr t ht => (hsame t).2.2.trans (hm.yield hr t ht), fun t _ => (hsame t).2.1⟩ hrot hturn ?_ ?_⟩
    · rw [(hsame t).2.1]
      exact hm.word t ht
    · rw [hne t htl]
      exact hm.whole t ht htl
    · rw [(hsame c.last).2.1, mod_succ_eq hstep, hself]
      show sub32 (c.os.threads c.last).remaining_tick 1 + _ = _
      rw [hsub]
      omega
    · refine .runs ⟨hrun.1, by rw [hself]; exact hrun.2⟩ htable fun hr => ?_
      have := Nat.mod_eq_of_lt (hless hr)
      rw [(hsame c.last).2.1]
      omega

theorem RrInv.tick (h : RrInv c rest) (hpos : ∀ t ∈ c.order, 0 < (c.os.threads t).init_tick)
    (hs : c.os.rt_tick_increase = some os) : ∃ rest', RrInv (c.counted.observe os) rest' := by
  cases h.place with
  | runs hrun htable hless => exact h.tick_running hpos hrun htable hless hs
  | away hh _ _ => exact h.tick_higher hpos hh hs
  | due hh _ _ _ => exact h.tick_higher hpos hh hs

/-- A thread of higher priority is woken. -/
theorem wake_beside (h : Inv c.os) (hlock : c.os.rt_scheduler_lock_nest = 0) {t : Tid}
    (hm : ∀ u ∈ c.order, (c.os.threads u).current_priority = c.priority)
    (hlt : (c.os.threads t).current_priority < c.priority) (hst : (c.os.threads t).stat = .SUSPEND) :
    c.Beside (wake c.os t) := by
  have hcalm := wake_calm (s := c.os) (t := t)
  refine ⟨wake_inv h hst, ?_, wake_current, ?_, fun u hu => ?_, fun u _ => (hcalm u).current_priority⟩
  · show ((c.os.resumeRemove t).rt_schedule_insert_thread t).rt_scheduler_lock_nest = 0
    rw [insert_lock]
    exact hlock
  · have hout : ((c.os.rt_list_remove t).rt_timer_stop t).rt_thread_priority_table c.priority =
        c.os.rt_thread_priority_table c.priority := h.filter_table fun hr => by simp [hst] at hr
    show ((c.os.resumeRemove t).rt_schedule_insert_thread t).rt_thread_priority_table c.priority = _
    by_cases hcur : (c.os.resumeRemove t).rt_current_thread = some t
    · rw [insert_of_current hcur]
      exact hout
    · rw [insert_of_ne_current hcur]
      have hne : c.priority ≠ ((c.os.resumeRemove t).threads t).current_priority := by
        rw [resumeRemove, rt_timer_stop, setThread_self]
        exact Nat.ne_of_gt hlt
      exact (Function.update_of_ne hne ..).trans hout
  · have hut : u ≠ t := by
      rintro rfl
      exact absurd (hm u hu) (Nat.ne_of_lt hlt)
    rw [wake, insert_threads_of_ne _ t hut, rt_timer_stop, setThread_of_ne _ t _ hut]
    rfl

/-- A thread of higher priority is suspended. -/
theorem putToSleep_beside (h : Inv c.os) (hlock : c.os.rt_scheduler_lock_nest = 0) {t : Tid}
    (hm : ∀ u ∈ c.order, (c.os.threads u).current_priority = c.priority)
    (hlt : (c.os.threads t).current_priority < c.priority)
    (hst : (c.os.threads t).stat = .READY ∨ (c.os.threads t).stat = .RUNNING) :
    c.Beside (putToSleep c.os t) := by
  have hcalm := putToSleep_calm (s := c.os) (t := t)
  refine ⟨putToSleep_inv h hst, hlock, rfl, h.filter_table fun _ => Nat.ne_of_lt hlt, fun u hu => ?_,
    fun u _ => (hcalm u).current_priority⟩
  have hut : u ≠ t := by
    rintro rfl
    exact absurd (hm u hu) (Nat.ne_of_lt hlt)
  rw [putToSleep, rt_timer_stop, setThread_of_ne _ t _ hut, setThread_of_ne _ t _ hut]
  rfl

theorem RrInv.refl_beside (h : RrInv c rest) : c.Beside c.os :=
  ⟨h.inv, h.unlocked, rfl, rfl, fun _ _ => rfl, fun _ _ => rfl⟩

theorem RrInv.step (h : RrInv c rest) {l : RrStep} (hu : c.Unbroken l) (hs : c.step l = some c') :
    ∃ rest', RrInv c' rest' := by
  obtain ⟨hpos, hkeep⟩ := hu
  cases l with
  | tick =>
    obtain ⟨os, hos, rfl⟩ := Option.map_eq_some_iff.mp hs
    exact h.tick hpos hos
  | schedule =>
    obtain ⟨os, hos, rfl⟩ := Option.map_eq_some_iff.mp hs
    refine h.schedule hpos (fun hcur hne => hkeep rfl hcur ?_) hos
    have hlen := congrArg List.length h.rotated
    have := List.length_pos_iff.mpr hne
    rw [List.length_rotate, List.length_cons] at hlen
    omega
  | wake t =>
    obtain ⟨hlt, hs⟩ := Option.ite_none_right_eq_some.mp hs
    obtain ⟨r, hr, rfl⟩ := Option.map_eq_some_iff.mp hs
    obtain ⟨-, hr⟩ := RT_ASSERT_bind_eq_some.mp hr
    refine ⟨rest, h.beside ?_⟩
    by_cases hst : (c.os.threads t).stat = .SUSPEND
    · rw [if_neg (by simpa using hst)] at hr
      obtain rfl := Option.some.inj hr
      exact wake_beside h.inv h.unlocked h.members.priority hlt hst
    · rw [if_pos hst] at hr
      obtain rfl := Option.some.inj hr
      exact h.refl_beside
  | suspend t =>
    obtain ⟨hlt, hs⟩ := Option.ite_none_right_eq_some.mp hs
    obtain ⟨r, hr, rfl⟩ := Option.map_eq_some_iff.mp hs
    refine ⟨rest, h.beside ?_⟩
    by_cases hst : (c.os.threads t).stat = .READY ∨ (c.os.threads t).stat = .RUNNING
    · rw [rt_thread_suspend_eq h.inv hst] at hr
      obtain rfl := Option.some.inj hr
      exact putToSleep_beside h.inv h.unlocked h.members.priority hlt hst
    · obtain ⟨-, hr⟩ := RT_ASSERT_bind_eq_some.mp hr
      rw [if_pos (not_or.mp hst)] at hr
      obtain rfl := Option.some.inj hr
      exact h.refl_beside
  | other os => cases hs

theorem Fresh.order_eq (h : c.Fresh) : c.order = c.last :: c.order.tail :=
  (List.cons_head?_tail h.first).symm

theorem Fresh.roundRobin (h : c.Fresh) : RoundRobin c := by
  refine ⟨fun i t n hi => ?_, ?_, fun _ => ?_⟩
  · rw [h.turns] at hi
    cases hi
  · rw [h.turns, List.length_nil, Nat.zero_mod, ← List.head?_eq_getElem?]
    exact h.first
  · rw [h.used]
    exact Nat.zero_le _

theorem Fresh.rrInv (h : c.Fresh) (hpos : ∀ t ∈ c.order, 0 < (c.os.threads t).init_tick) :
    RrInv c c.order.tail := by
  have hlast : c.last ∈ c.order := by
    rw [h.order_eq]
    exact List.mem_cons_self
  have hless : c.used < (c.os.threads c.last).init_tick := by
    rw [h.used]
    exact hpos c.last hlast
  refine ⟨h.inv, h.unlocked, ⟨fun t ht => (h.member t ht).1, fun t ht => (h.member t ht).2.2.1,
    fun t ht _ => (h.member t ht).2.1, fun _ t ht => (h.member t ht).2.2.2, fun _ _ => rfl⟩, ?_,
    h.roundRobin.turn, ?_, ?_⟩
  · rw [h.turns, List.length_nil, List.rotate_zero]
    exact h.order_eq
  · rw [h.used, Nat.zero_mod, Nat.add_zero]
    exact (h.member c.last hlast).2.1
  · rcases h.current with ⟨hrun, htable⟩ | ⟨hh, htable⟩
    · exact .runs hrun htable fun _ => hless
    · exact .away hh (htable.trans h.order_eq) fun _ => hless

end RrSystem

open RrSystem

/-- In every run in which no thread of higher priority cuts a time slice short, the threads of one priority
run round and round, each for its whole time slice. -/
theorem round_robin {c : RrSystem} (hr : (rrMachine.restrict Unbroken).Reachable c) : RoundRobin c := by
  suffices h : RoundRobin c ∧
      ((∀ t ∈ c.order, 0 < (c.os.threads t).init_tick) → ∃ rest, RrInv c rest) from h.1
  apply hr.invariant
  · exact fun c h => ⟨h.roundRobin, fun hpos => ⟨_, h.rrInv hpos⟩⟩
  · rintro c l c' - ⟨-, h⟩ ⟨hu, hs⟩
    obtain ⟨rest, h⟩ := h hu.1
    have hnext : ∃ rest', RrInv c' rest' := by
      rcases hs with hs | ⟨os, -, rfl, hb⟩
      · exact h.step hu hs
      · exact ⟨rest, h.beside hb⟩
    obtain ⟨rest', h'⟩ := hnext
    exact ⟨h'.roundRobin, fun _ => ⟨rest', h'⟩⟩

/-- Threads 2 and 31 have priority 2, and thread 1 of priority 1 runs. -/
def threads2and31 (os : Rtos) : RrSystem :=
  { os := os, priority := 2, order := [2, 31], last := 2, used := 0, turns := [] }

def equalThreads : Option Rtos := startedThreads.bind fun s => s.rt_thread_control_priority 31 2

/-- Thread 1 sleeps while thread 2 uses its time slice. -/
def wholeSlice : List RrStep := [.suspend 1, .schedule, .tick, .tick, .tick, .tick, .tick]

/-- Thread 1 wakes after a tick of thread 2 and sleeps again. -/
def brokenSlice : List RrStep :=
  [.suspend 1, .schedule, .tick, .wake 1, .schedule, .suspend 1, .schedule]

/-- The threads before these runs, and where the runs lead. -/
theorem runs_of_slices : ∃ os, equalThreads = some os ∧
    (os.rt_scheduler_lock_nest = 0 ∧ os.rt_current_thread = some 1 ∧
      (os.threads 1).current_priority = 1 ∧ os.rt_thread_priority_table 2 = [2, 31] ∧
      ∀ t ∈ [2, 31], (os.threads t).current_priority = 2 ∧ (os.threads t).remaining_tick = 5 ∧
        (os.threads t).init_tick = 5 ∧ (os.threads t).stat_yield = false) ∧
    (∃ c, Machine.runs unbrokenStep (threads2and31 os) wholeSlice = some c ∧ c.turns = [(2, 5)]) ∧
    ∃ c, Machine.runs RrSystem.step (threads2and31 os) brokenSlice = some c ∧
      c.turns[0]? = some (2, 1) ∧ (c.os.threads 2).init_tick = 5 := by
  decide +kernel

theorem threads2and31_fresh {os : Rtos} (hos : equalThreads = some os) : (threads2and31 os).Fresh := by
  have hinv : Inv os := by
    obtain ⟨s, hs, hos⟩ := Option.bind_eq_some_iff.mp hos
    exact rt_thread_control_priority_inv (startedThreads_inv hs) (by omega) hos
  obtain ⟨os', hos', ⟨hlock, hcur, hprio, htable, hthread⟩, -⟩ := runs_of_slices
  obtain rfl := Option.some.inj (hos'.symm.trans hos)
  refine ⟨hinv, hlock, rfl, fun t ht => ?_, Or.inr ⟨⟨1, hcur, ?_⟩, htable⟩, rfl, rfl⟩
  · obtain ⟨h1, h2, h3, h4⟩ := hthread t ht
    exact ⟨h1, h2.trans h3.symm, by
      show (os'.threads t).init_tick < 2 ^ 32
      rw [h3]
      decide, h4⟩
  · show (os'.threads 1).current_priority < 2
    omega

theorem round_robin_slice : ∃ os, equalThreads = some os ∧
    ∃ c, Machine.runs unbrokenStep (threads2and31 os) wholeSlice = some c ∧ c.turns = [(2, 5)] ∧
      RoundRobin c := by
  obtain ⟨os, hos, -, ⟨c, hc, hturns⟩, -⟩ := runs_of_slices
  refine ⟨os, hos, c, hc, hturns, round_robin ?_⟩
  refine (Machine.Reachable.start (threads2and31_fresh hos)).runs (fun c l c' hs => ?_) hc
  obtain ⟨hu, hs⟩ := Option.ite_none_right_eq_some.mp hs
  exact ⟨hu, Or.inl hs⟩

theorem round_robin_fails : ¬∀ c, rrMachine.Reachable c → RoundRobin c := by
  obtain ⟨os, hos, -, -, c, hc, hturn, hinit⟩ := runs_of_slices
  intro h
  have hr : rrMachine.Reachable c :=
    (Machine.Reachable.start (threads2and31_fresh hos)).runs (fun _ _ _ hs => Or.inl hs) hc
  have hone := ((h c hr).turn 0 2 1 hturn).2
  rw [hinit] at hone
  exact absurd hone (by decide)

end Ab32Vg1.Kernel
