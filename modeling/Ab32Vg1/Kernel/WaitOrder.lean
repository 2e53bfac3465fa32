import Ab32Vg1.Kernel.Inheritance
import Ab32Vg1.ProofKit.StableInsert

/-! The list of waiting threads of an IPC object of the kind `RT_IPC_FLAG_PRIO`: which thread a call
of `rt_ipc_list_resume` wakes. -/

namespace Ab32Vg1.Kernel

open ProofKit Rtos

/-- An object with the list `list`.  The number of suspensions on it so far, when each thread was
suspended, and whether its priority has changed since, are not in the code. -/
structure WaitList where
  os : Rtos
  list : Nat
  clock : Nat
  since : Tid → Nat
  changed : Tid → Bool

inductive WaitStep where
  | suspend (t : Tid) (time : Int)
  | resume
  | timeout (t : Tid)
  | control (t : Tid) (priority : Nat)
  | schedule
  | other (os : Rtos)

namespace WaitList

def waiters (c : WaitList) : List Tid := c.os.suspend_thread c.list

def priority (c : WaitList) (t : Tid) : Nat := (c.os.threads t).current_priority

/-- The running thread resets its error and waits. -/
def suspend (c : WaitList) (t : Tid) (time : Int) : Option WaitList :=
  if Runs c.os t then
    (c.os.waitOn c.list t .prio time).map fun os =>
      { c with
        os := os
        clock := c.clock + 1
        since := Function.update c.since t c.clock
        changed := Function.update c.changed t false }
  else none

def resume (c : WaitList) : Option WaitList :=
  (c.os.rt_ipc_list_resume c.list).map fun os => { c with os := os }

def timeout (c : WaitList) (t : Tid) : Option WaitList :=
  if (c.os.threads t).thread_timer.activated = true then
    (c.os.timerExpires t).map fun os => { c with os := os }
  else none

/-- `rt_thread_control` changes a priority, for its caller or for the owner of a mutex. -/
def control (c : WaitList) (t : Tid) (priority : Nat) : Option WaitList :=
  if priority < RT_THREAD_PRIORITY_MAX then
    (c.os.rt_thread_control_priority t priority).map fun os =>
      { c with
        os := os
        changed :=
          if priority = c.priority t then c.changed else Function.update c.changed t true }
  else none

def step (c : WaitList) : WaitStep → Option WaitList
  | .suspend t time => c.suspend t time
  | .resume => c.resume
  | .timeout t => c.timeout t
  | .control t p => c.control t p
  | .schedule => c.os.rt_schedule.map fun os => { c with os := os }
  | .other _ => none

/-- What the rest of the system may do: take threads off the list, and anything to the others. -/
structure Beside (c : WaitList) (os : Rtos) : Prop where
  inv : Inv os
  sublist : (os.suspend_thread c.list).Sublist c.waiters
  same : ∀ t ∈ os.suspend_thread c.list, (os.threads t).current_priority = c.priority t

structure Fresh (c : WaitList) : Prop where
  inv : Inv c.os
  waiters : c.waiters = []

end WaitList

def waitMachine : Machine WaitList WaitStep where
  start := WaitList.Fresh
  step c l c' := c.step l = some c' ∨ ∃ os, l = .other os ∧ c' = { c with os := os } ∧ c.Beside os

namespace WaitList

/-- The thread `t` is woken: it has the highest priority of the list, and waits the longest of those
with this priority, if theirs never changed. -/
structure Wakes (c c' : WaitList) (t : Tid) : Prop where
  waiting : t ∈ c.waiters
  woken : c'.waiters = c.waiters.erase t ∧ (c'.os.threads t).stat ≠ .SUSPEND
  highest : ∀ u ∈ c.waiters, c.priority t ≤ c.priority u
  first : c.changed t = false → ∀ u ∈ c.waiters, u ≠ t → c.priority u = c.priority t →
    c.changed u = false → c.since t < c.since u

def WakesFirst (c : WaitList) : Prop :=
  c.waiters ≠ [] → ∃ c' t, c.resume = some c' ∧ Wakes c c' t

/-- The threads of the list are still in the order of their priorities after the change of one. -/
def KeepsOrder (c : WaitList) : WaitStep → Prop
  | .control t p =>
    c.waiters.Pairwise fun u v =>
      Function.update c.priority t p u ≤ Function.update c.priority t p v
  | _ => True

instance (c : WaitList) (l : WaitStep) : Decidable (c.KeepsOrder l) :=
  match l with
  | .control .. => inferInstanceAs (Decidable (List.Pairwise _ _))
  | .suspend .. | .resume | .timeout _ | .schedule | .other _ => isTrue trivial

/-! ### The order of the list -/

/-- The thread `u` goes before the thread `v`. -/
def Before (c : WaitList) (u v : Tid) : Prop :=
  c.priority u ≤ c.priority v ∧
    (c.priority u = c.priority v → c.changed u = false → c.changed v = false →
      c.since u < c.since v)

structure WaitInv (c : WaitList) : Prop where
  inv : Inv c.os
  order : c.waiters.Pairwise c.Before
  past : ∀ t ∈ c.waiters, c.since t < c.clock

theorem insertByPriority_eq (priority : Tid → Nat) (t : Tid) (us : List Tid) :
    insertByPriority priority t us = insertStable (fun u => decide (priority t < priority u)) t us := by
  induction us with
  | nil => rfl
  | cons u us ih =>
    rw [insertByPriority, insertStable, ih]
    simp only [decide_eq_true_eq]

variable {c c' : WaitList} {t u : Tid}

theorem Fresh.waitInv (h : Fresh c) : WaitInv c where
  inv := h.inv
  order := by
    rw [h.waiters]
    exact List.Pairwise.nil
  past t ht := by simp [h.waiters] at ht

/-- Threads leave the list. -/
theorem WaitInv.beside {os : Rtos} (h : WaitInv c) (hb : c.Beside os) :
    WaitInv { c with os := os } := by
  have hsub := hb.sublist
  refine ⟨hb.inv, ?_, fun t ht => h.past t (hsub.subset ht)⟩
  apply (h.order.sublist hsub).imp_of_mem
  intro u v hu hv huv
  have hpu := hb.same u hu
  have hpv := hb.same v hv
  simp only [Before, priority] at huv ⊢
  rw [hpu, hpv]
  exact huv

theorem calm_beside {os : Rtos} (hinv : Inv os) (hsub : (os.suspend_thread c.list).Sublist c.waiters)
    (hcalm : Calm c.os os) : c.Beside os :=
  ⟨hinv, hsub, fun t _ => (hcalm t).current_priority⟩

theorem WaitInv.suspend {time : Int} (h : WaitInv c) (hs : c.suspend t time = some c') :
    WaitInv c' := by
  rw [WaitList.suspend] at hs
  by_cases hrun : Runs c.os t
  · rw [if_pos hrun] at hs
    obtain ⟨os, hos, rfl⟩ := Option.map_eq_some_iff.mp hs
    have hnot : t ∉ c.waiters := hrun.not_waiting h.inv _
    let s1 := c.os.setThread t fun th => { th with error := RT_EOK }
    have hcalm1 : Calm c.os s1 := setThread_calm ⟨rfl, rfl, rfl⟩
    obtain ⟨hcalm2, hafter⟩ := suspendOn_calm (resetError_inv h.inv RT_EOK)
      (by simpa using hrun.2) hos
    have hprio : ∀ u, (os.threads u).current_priority = c.priority u :=
      fun u => ((hcalm1.trans hcalm2) u).current_priority
    have hlist : os.suspend_thread c.list =
        insertStable (fun u => decide (c.priority t < c.priority u)) t c.waiters := by
      rw [hafter, ← insertByPriority_eq]
      simp only [waitingAfter, fun u => (hcalm1 u).current_priority, s1]
      rfl
    let c1 : WaitList :=
      { c with
        os := os
        clock := c.clock + 1
        since := Function.update c.since t c.clock
        changed := Function.update c.changed t false }
    have hp : ∀ u, c1.priority u = c.priority u := hprio
    have hsince : ∀ u, u ≠ t → c1.since u = c.since u := fun u hu => Function.update_of_ne hu ..
    have hchanged : ∀ u, u ≠ t → c1.changed u = c.changed u := fun u hu =>
      Function.update_of_ne hu ..
    have hself : c1.since t = c.clock := Function.update_self ..
    have hne : ∀ u ∈ c.waiters, u ≠ t := fun u hu heq => hnot (heq ▸ hu)
    have hle : ∀ u v, c1.Before u v → c.priority u ≤ c.priority v := by
      intro u v huv
      have hle := huv.1
      rwa [hp, hp] at hle
    have hlater : ∀ u, c.priority t < c.priority u → c1.Before t u := by
      intro u hu
      rw [Before, hp, hp]
      exact ⟨hu.le, fun heq => absurd heq hu.ne⟩
    refine ⟨waitOn_inv h.inv (Or.inr hrun.2) hos, ?_, fun u hu => ?_⟩
    · show (os.suspend_thread c.list).Pairwise c1.Before
      rw [hlist]
      apply insertStable_pairwise
      · apply h.order.imp_of_mem
        intro u v hu hv huv
        rw [Before, hp, hp, hsince u (hne u hu), hsince v (hne v hv), hchanged u (hne u hu),
          hchanged v (hne v hv)]
        exact huv
      · intro u _ hu
        exact hlater u (of_decide_eq_true hu)
      · intro u _ v _ hu huv
        exact hlater v ((of_decide_eq_true hu).trans_le (hle u v huv))
      · -- the threads in front have waited longer
        intro u hu hlt
        have hge := of_decide_eq_false hlt
        rw [Before, hp, hp, hself, hsince u (hne u hu)]
        exact ⟨by omega, fun _ _ _ => h.past u hu⟩
    · have hu' : u ∈ os.suspend_thread c.list := hu
      rw [hlist, mem_insertStable] at hu'
      show c1.since u < c.clock + 1
      rcases hu' with rfl | hu'
      · rw [hself]
        omega
      · have hpast := h.past u hu'
        rw [hsince u (hne u hu')]
        omega
  · rw [if_neg hrun] at hs
    cases hs

theorem WaitInv.resume (h : WaitInv c) (hs : c.resume = some c') : WaitInv c' := by
  obtain ⟨os, hos, rfl⟩ := Option.map_eq_some_iff.mp hs
  cases hlist : c.waiters with
  | nil =>
    have hlist' : c.os.suspend_thread c.list = [] := hlist
    rw [rt_ipc_list_resume, hlist'] at hos
    cases hos
  | cons first rest =>
    obtain ⟨hres, hw⟩ := rt_ipc_list_resume_woken h.inv hlist
    obtain rfl := Option.some.inj (hres.symm.trans hos)
    apply h.beside
    apply calm_beside hw.inv ?_ wake_calm
    rw [hw.suspend, if_pos rfl]
    exact List.tail_sublist _

theorem WaitInv.timeout (h : WaitInv c) (hs : c.timeout t = some c') : WaitInv c' := by
  rw [WaitList.timeout] at hs
  by_cases hact : (c.os.threads t).thread_timer.activated = true
  · rw [if_pos hact] at hs
    obtain ⟨os, hos, rfl⟩ := Option.map_eq_some_iff.mp hs
    have hto := timerExpires_timedOut h.inv hos
    apply h.beside
    apply calm_beside hto.inv ?_ (timerExpires_calm hos)
    rw [hto.suspend]
    exact List.filter_sublist
  · rw [if_neg hact] at hs
    cases hs

theorem WaitInv.control {p : Nat} (h : WaitInv c) (hk : c.KeepsOrder (.control t p))
    (hs : c.control t p = some c') : WaitInv c' := by
  rw [WaitList.control] at hs
  by_cases hlt : p < RT_THREAD_PRIORITY_MAX
  · rw [if_pos hlt] at hs
    obtain ⟨os, hos, rfl⟩ := Option.map_eq_some_iff.mp hs
    have hrep := rt_thread_control_priority_reprioritized h.inv hlt hos
    have hsets := rt_thread_control_priority_sets hos
    have hlist : os.suspend_thread c.list = c.waiters := hrep.suspend _
    have hprio : ∀ u, (os.threads u).current_priority = Function.update c.priority t p u := by
      intro u
      by_cases hut : u = t
      · rw [hut, Function.update_self, hsets.current_priority]
      · rw [Function.update_of_ne hut, (hsets.other u hut).current_priority]
        rfl
    let c1 : WaitList :=
      { c with
        os := os
        changed :=
          if p = c.priority t then c.changed else Function.update c.changed t true }
    have hprio1 : ∀ u, c1.priority u = Function.update c.priority t p u := hprio
    have hchanged : c1.changed =
        if p = c.priority t then c.changed else Function.update c.changed t true := rfl
    have hsince : ∀ u, c1.since u = c.since u := fun u => rfl
    refine ⟨hrep.inv, ?_, fun u hu => h.past u (hlist ▸ hu)⟩
    show (os.suspend_thread c.list).Pairwise c1.Before
    rw [hlist]
    apply (h.order.and hk).imp
    rintro u v ⟨hold, hnew⟩
    rw [Before, hprio1, hprio1, hchanged, hsince, hsince]
    refine ⟨hnew, ?_⟩
    by_cases hp : p = c.priority t
    · -- the priority is the old one
      have hsame : Function.update c.priority t p = c.priority := by
        rw [hp]
        exact Function.update_eq_self t c.priority
      rw [if_pos hp, hsame]
      exact hold.2
    · rw [if_neg hp]
      intro heq hu hv
      have hut : u ≠ t := by
        rintro rfl
        rw [Function.update_self] at hu
        cases hu
      have hvt : v ≠ t := by
        rintro rfl
        rw [Function.update_self] at hv
        cases hv
      rw [Function.update_of_ne hut, Function.update_of_ne hvt] at heq
      rw [Function.update_of_ne hut] at hu
      rw [Function.update_of_ne hvt] at hv
      exact hold.2 heq hu hv
  · rw [if_neg hlt] at hs
    cases hs

theorem WaitInv.step {l : WaitStep} (h : WaitInv c) (hk : c.KeepsOrder l)
    (hs : waitMachine.step c l c') : WaitInv c' := by
  rcases hs with hs | ⟨os, -, rfl, hb⟩
  · cases l with
    | suspend t time => exact h.suspend hs
    | resume => exact h.resume hs
    | timeout t => exact h.timeout hs
    | control t p => exact h.control hk hs
    | schedule =>
      obtain ⟨os, hos, rfl⟩ := Option.map_eq_some_iff.mp hs
      apply h.beside
      apply calm_beside (rt_schedule_inv h.inv hos) ?_ (rt_schedule_calm hos)
      rw [(rt_schedule_waits h.inv hos).1]
      exact List.Sublist.refl _
    | other os => cases hs
  · exact h.beside hb

/-- The first thread of the list is woken. -/
theorem WaitInv.wakesFirst (h : WaitInv c) : c.WakesFirst := by
  intro hne
  obtain ⟨first, rest, hcons⟩ := List.exists_cons_of_ne_nil hne
  obtain ⟨hres, hw⟩ := rt_ipc_list_resume_woken h.inv hcons
  have horder := h.order
  rw [hcons] at horder
  have hfirst := (List.pairwise_cons.mp horder).1
  refine ⟨{ c with os := wake c.os first }, first, ?_, ?_, ⟨?_, ?_⟩, ?_, ?_⟩
  · rw [WaitList.resume, hres, Option.map_some]
  · rw [hcons]
    exact List.mem_cons_self
  · show (wake c.os first).suspend_thread c.list = _
    rw [hw.suspend, if_pos rfl, hcons, List.erase_cons_head]
    show c.waiters.tail = rest
    rw [hcons, List.tail_cons]
  · simp only [wake_threads_self]
    split <;> simp
  · intro u hu
    rw [hcons] at hu
    rcases List.mem_cons.mp hu with rfl | hu
    · exact Nat.le_refl _
    · exact (hfirst u hu).1
  · intro hchanged u hu hne' heq hu'
    rw [hcons] at hu
    have hrest := (List.mem_cons.mp hu).resolve_left hne'
    exact (hfirst u hrest).2 heq.symm hchanged hu'

/-! ### A list out of order -/

/-- The list is in the order of the priorities. -/
def Ordered (c : WaitList) : Prop := c.waiters.Pairwise fun u v => c.priority u ≤ c.priority v

theorem control_ordered {p : Nat} (h : Inv c.os) (hs : c.control t p = some c') :
    Inv c'.os ∧ (c'.Ordered ↔ c.KeepsOrder (.control t p)) := by
  rw [WaitList.control] at hs
  by_cases hlt : p < RT_THREAD_PRIORITY_MAX
  · rw [if_pos hlt] at hs
    obtain ⟨os, hos, rfl⟩ := Option.map_eq_some_iff.mp hs
    have hrep := rt_thread_control_priority_reprioritized h hlt hos
    have hsets := rt_thread_control_priority_sets hos
    have hprio : (fun u => (os.threads u).current_priority) = Function.update c.priority t p := by
      funext u
      by_cases hut : u = t
      · rw [hut, Function.update_self, hsets.current_priority]
      · rw [Function.update_of_ne hut, (hsets.other u hut).current_priority]
        rfl
    refine ⟨hrep.inv, ?_⟩
    show (os.suspend_thread c.list).Pairwise (fun u v => (os.threads u).current_priority ≤
      (os.threads v).current_priority) ↔ _
    rw [hrep.suspend, KeepsOrder, ← hprio]
    rfl
  · rw [if_neg hlt] at hs
    cases hs

/-- The thread at the head of the list is the one that is woken. -/
theorem resume_head {first : Tid} {rest : List Tid} (h : Inv c.os)
    (hcons : c.waiters = first :: rest) : ∃ c', c.resume = some c' ∧ Inv c'.os ∧
      c'.waiters = rest ∧ ∀ u, c'.priority u = c.priority u := by
  obtain ⟨hres, hw⟩ := rt_ipc_list_resume_woken h hcons
  refine ⟨{ c with os := wake c.os first }, ?_, hw.inv, ?_, fun u => (wake_calm u).current_priority⟩
  · rw [WaitList.resume, hres, Option.map_some]
  · show (wake c.os first).suspend_thread c.list = rest
    rw [hw.suspend, if_pos rfl]
    show c.waiters.tail = rest
    rw [hcons, List.tail_cons]

theorem not_wakesFirst {first : Tid} {rest : List Tid} (h : Inv c.os)
    (hcons : c.waiters = first :: rest) (hu : u ∈ rest) (hlt : c.priority u < c.priority first) :
    ¬c.WakesFirst := by
  intro hwakes
  obtain ⟨c', t, hs, hw⟩ := hwakes (by simp [hcons])
  obtain ⟨c1, hs1, -, hrest, -⟩ := resume_head h hcons
  obtain rfl := Option.some.inj (hs1.symm.trans hs)
  have hnodup := h.suspend_nodup c.list
  rw [show c.os.suspend_thread c.list = _ from hcons] at hnodup
  have hmem : u ∈ c.waiters := by
    rw [hcons]
    exact List.mem_cons_of_mem first hu
  by_cases ht : t = first
  · have hle := hw.highest u hmem
    rw [ht] at hle
    omega
  · -- the woken thread is off the list, and the first one is not on the rest
    have herase := hw.woken.1
    rw [hrest, hcons, List.erase_cons_tail (by simpa using Ne.symm ht)] at herase
    apply (List.nodup_cons.mp hnodup).1
    rw [herase]
    exact List.mem_cons_self

/-- Waking the threads one by one comes to a thread in front of one of higher priority. -/
theorem misordered_wakes (h : Inv c.os) (hbad : ¬c.Ordered) : ∃ n c',
    Machine.runs WaitList.step c (List.replicate n .resume) = some c' ∧ ¬c'.WakesFirst := by
  generalize hl : c.waiters = us
  induction us generalizing c with
  | nil =>
    rw [Ordered, hl] at hbad
    exact absurd List.Pairwise.nil hbad
  | cons first rest ih =>
    by_cases hfirst : ∀ u ∈ rest, c.priority first ≤ c.priority u
    · obtain ⟨c1, hs1, hinv, hrest, hprio⟩ := resume_head h hl
      have hbad1 : ¬c1.Ordered := by
        intro hord
        apply hbad
        rw [Ordered, hl, List.pairwise_cons]
        refine ⟨hfirst, ?_⟩
        rw [Ordered, hrest] at hord
        apply hord.imp
        intro u v huv
        rwa [hprio, hprio] at huv
      obtain ⟨n, c2, hrun, hwrong⟩ := ih hinv hbad1 hrest
      refine ⟨n + 1, c2, ?_, hwrong⟩
      rw [List.replicate_succ, Machine.runs]
      show (c.resume).bind _ = _
      rw [hs1, Option.bind_some]
      exact hrun
    · obtain ⟨u, hu⟩ := not_forall.mp hfirst
      obtain ⟨hmem, hlt⟩ := Classical.not_imp.mp hu
      exact ⟨0, c, rfl, not_wakesFirst h hl hmem (by omega)⟩

end WaitList

open WaitList

/-- In every run in which no change of a priority puts the list out of order, the thread of the
highest priority is woken; after any other change, waking the threads one by one comes to a wrong
one. -/
theorem waiting_by_priority {c : WaitList} (hr : (waitMachine.restrict KeepsOrder).Reachable c) :
    c.WakesFirst ∧ ∀ t p c', c.control t p = some c' → ¬c.KeepsOrder (.control t p) → ∃ n c'',
      Machine.runs WaitList.step c' (List.replicate n .resume) = some c'' ∧ ¬c''.WakesFirst := by
  have h : WaitInv c := by
    apply hr.invariant
    · exact fun c h => h.waitInv
    · exact fun c l c' _ h hs => h.step hs.1 hs.2
  refine ⟨h.wakesFirst, fun t p c' hs hbad => ?_⟩
  obtain ⟨hinv, hord⟩ := control_ordered h.inv hs
  exact misordered_wakes hinv (mt hord.mp hbad)

/-- Threads 1 and 2 sleep, and thread 31 runs; nobody waits for the object. -/
def emptyList (os : Rtos) : WaitList := ⟨os, 0, 0, fun _ => 0, fun _ => false⟩

theorem emptyList_fresh {os : Rtos} (h : sleepingThreads = some os) : (emptyList os).Fresh where
  inv := (sleepingThreads_created h).1
  waiters := congrFun (sleepingThreads_lists h) 0

/-- The steps that keep the list in order. -/
def stepOrdered (c : WaitList) (l : WaitStep) : Option WaitList :=
  if c.KeepsOrder l then c.step l else none

/-- Threads 31 and 2 wait, and thread 1 gives thread 31 the priority 5. -/
def raiseBehind : List WaitStep :=
  [.suspend 31 (-1), .timeout 2, .suspend 2 (-1), .timeout 1, .control 31 5]

theorem waiting_by_priority_raised : ∃ os, sleepingThreads = some os ∧
    ∃ c, Machine.runs stepOrdered (emptyList os) raiseBehind = some c ∧ c.waiters = [2, 31] ∧
      (c.WakesFirst ∧ ∀ t p c', c.control t p = some c' → ¬c.KeepsOrder (.control t p) → ∃ n c'',
        Machine.runs WaitList.step c' (List.replicate n .resume) = some c'' ∧ ¬c''.WakesFirst) := by
  have hrun : ∃ os, sleepingThreads = some os ∧
      ∃ c, Machine.runs stepOrdered (emptyList os) raiseBehind = some c ∧ c.waiters = [2, 31] := by
    decide +kernel
  obtain ⟨os, hos, c, hc, hwait⟩ := hrun
  refine ⟨os, hos, c, hc, hwait, waiting_by_priority ?_⟩
  refine (Machine.Reachable.start (emptyList_fresh hos)).runs (fun c l c' hs => ?_) hc
  rw [stepOrdered] at hs
  split at hs
  · exact ⟨‹_›, Or.inl hs⟩
  · cases hs

/-- Thread 31 gets the priority 0 behind thread 2. -/
def raiseToTop : List WaitStep :=
  [.suspend 31 (-1), .timeout 2, .suspend 2 (-1), .timeout 1, .control 31 0]

theorem waiting_out_of_order : ∃ c, waitMachine.Reachable c ∧ c.waiters = [2, 31] ∧
    c.priority 2 = 2 ∧ c.priority 31 = 0 ∧ ¬c.WakesFirst := by
  have hrun : ∃ os, sleepingThreads = some os ∧
      ∃ c, Machine.runs WaitList.step (emptyList os) raiseToTop = some c ∧ c.waiters = [2, 31] ∧
        c.priority 2 = 2 ∧ c.priority 31 = 0 ∧ (c.resume.map fun c' => c'.waiters) = some [31] := by
    decide +kernel
  obtain ⟨os, hos, c, hc, hwait, h2, h31, hres⟩ := hrun
  have hreach : waitMachine.Reachable c :=
    (Machine.Reachable.start (emptyList_fresh hos)).runs (fun _ _ _ hs => Or.inl hs) hc
  refine ⟨c, hreach, hwait, h2, h31, fun h => ?_⟩
  obtain ⟨c', t, hs, hw⟩ := h (by simp [hwait])
  rw [hs, Option.map_some] at hres
  have hwoken := hw.woken.1
  rw [Option.some.inj hres, hwait] at hwoken
  have hle := hw.highest 31 (by simp [hwait])
  rw [h31] at hle
  have ht : t ≠ 2 := by
    rintro rfl
    omega
  rw [List.erase_cons_tail (by simpa using ht.symm)] at hwoken
  cases hwoken

end Ab32Vg1.Kernel
