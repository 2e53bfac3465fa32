import Ab32Vg1.Kernel.Mutex
import Ab32Vg1.Kernel.Priority
import Ab32Vg1.ProofKit.Inheritance

/-! Any number of mutexes and the threads that take and release them: what each step does to the
owners, the waiting threads and the priorities. -/

set_option linter.unusedSectionVars false

namespace Ab32Vg1.Kernel

open ProofKit Rtos

/-- The mutexes `M`, each with its own list; `taking` is the mutex that a thread waits for in
`rt_mutex_take`, or has yet to return from. -/
structure Mutexes (M : Type) where
  os : Rtos
  mutex : M → Mutex
  taking : Tid → Option M

inductive MutexesStep (M : Type) where
  | take (t : Tid) (m : M) (time : Int)
  | takeResumed (t : Tid)
  | release (t : Tid) (m : M)
  | timeout (t : Tid)
  | schedule
  | other (os : Rtos)

variable {M : Type} [DecidableEq M]

namespace Mutexes

/-- The threads in the list of a mutex. -/
def waiters (c : Mutexes M) (m : M) : List Tid := c.os.suspend_thread (c.mutex m).suspend_thread

def take (c : Mutexes M) (t : Tid) (m : M) (time : Int) : Option (Mutexes M) :=
  if Runs c.os t ∧ c.taking t = none then do
    let (os, mutex, outcome) ← (c.mutex m).rt_mutex_take c.os time
    let c := { c with os := os, mutex := Function.update c.mutex m mutex }
    match outcome with
    | .returned _ => return c
    | .suspended => return { c with taking := Function.update c.taking t (some m) }
  else none

def takeResumed (c : Mutexes M) (t : Tid) : Option (Mutexes M) :=
  if Runs c.os t then some { c with taking := Function.update c.taking t none } else none

def release (c : Mutexes M) (t : Tid) (m : M) : Option (Mutexes M) :=
  if Runs c.os t ∧ c.taking t = none then do
    let (os, mutex, _) ← (c.mutex m).rt_mutex_release c.os
    return { c with os := os, mutex := Function.update c.mutex m mutex }
  else none

/-- The timer of a thread expires, which waits for a mutex or sleeps. -/
def timeout (c : Mutexes M) (t : Tid) : Option (Mutexes M) :=
  if (c.os.threads t).thread_timer.activated = true then
    (c.os.timerExpires t).map fun os => { c with os := os }
  else none

def step (c : Mutexes M) : MutexesStep M → Option (Mutexes M)
  | .take t m time => c.take t m time
  | .takeResumed t => c.takeResumed t
  | .release t m => c.release t m
  | .timeout t => c.timeout t
  | .schedule => c.os.rt_schedule.map fun os => { c with os := os }
  | .other _ => none

/-- The thread owns no mutex and waits for none. -/
def Idle (c : Mutexes M) (t : Tid) : Prop := ∀ m, (c.mutex m).owner ≠ some t ∧ t ∉ c.waiters m

/-- What the rest of the system may do: leave the lists and the priorities alone, end threads and
create threads. -/
structure Apart (c : Mutexes M) (os : Rtos) : Prop where
  inv : Inv os
  suspend : ∀ m, os.suspend_thread (c.mutex m).suspend_thread = c.waiters m
  thread : ∀ t, SamePriority (c.os.threads t) (os.threads t) ∨
    (os.threads t).current_priority = (c.os.threads t).current_priority ∧
      (os.threads t).is_thread = false ∨
    c.Idle t ∧ (os.threads t).current_priority = (os.threads t).init_priority

/-- The mutexes after `rt_mutex_init`, and threads with the priorities they were created with. -/
structure Fresh (c : Mutexes M) : Prop where
  inv : Inv c.os
  distinct : ∀ m m', (c.mutex m).suspend_thread = (c.mutex m').suspend_thread → m = m'
  mutex : ∀ m, (c.mutex m).value = 1 ∧ (c.mutex m).owner = none ∧ (c.mutex m).hold = 0
  waiters : ∀ m, c.waiters m = []
  taking : ∀ t, c.taking t = none
  created : ∀ t, (c.os.threads t).is_thread = true →
    (c.os.threads t).current_priority = (c.os.threads t).init_priority

/-- The owners, waiting threads and priorities, without the code. -/
def view (c : Mutexes M) : Locks M Tid Nat where
  owner m := (c.mutex m).owner
  waiting m t := t ∈ c.waiters m
  priority t := (c.os.threads t).current_priority
  saved m := (c.mutex m).original_priority
  own t := if (c.os.threads t).is_thread = true then some (c.os.threads t).init_priority else none

end Mutexes

def mutexesMachine : Machine (Mutexes M) (MutexesStep M) where
  start := Mutexes.Fresh
  step c l c' := c.step l = some c' ∨ ∃ os, l = .other os ∧ c' = { c with os := os } ∧ c.Apart os

namespace Mutexes

/-! ### The invariant -/

structure MutexesInv (c : Mutexes M) : Prop where
  inv : Inv c.os
  distinct : ∀ m m', (c.mutex m).suspend_thread = (c.mutex m').suspend_thread → m = m'
  fields : ∀ m, (c.mutex m).FieldsOk
  free : ∀ m, (c.mutex m).owner = none → c.waiters m = []
  taking : ∀ m t, t ∈ c.waiters m → c.taking t = some m
  others : ∀ m t, t ∈ c.waiters m → (c.mutex m).owner ≠ some t

/-- The priority of the thread that gets a mutex from its owner. -/
def nextPriority (c : Mutexes M) (m : M) (next : Tid) : Nat :=
  if (c.mutex m).flag = .fifo then rt_ipc_get_highest_priority c.os (c.waiters m)
  else (c.os.threads next).current_priority

/-- What a step does to the owners, the waiting threads and the priorities. -/
inductive Moves (c : Mutexes M) : MutexesStep M → Locks M Tid Nat → Prop where
  | stays {l : MutexesStep M} (htake : ∀ t m time, l = .take t m time →
        (c.mutex m).owner = some t ∨ time = 0)
      (hrelease : ∀ t m, l = .release t m → (c.mutex m).owner = some t → (c.mutex m).hold ≠ 1) :
      Moves c l c.view
  | acquire {t : Tid} {m : M} {time : Int} (ho : (c.mutex m).owner = none) :
      Moves c (.take t m time) (c.view.acquire m t)
  | wait {t o : Tid} {m : M} {time : Int} (ho : (c.mutex m).owner = some o) (hot : o ≠ t)
      (htime : time ≠ 0) (hidle : ∀ m, t ∉ c.waiters m) :
      Moves c (.take t m time) (c.view.wait m t o)
  | leave {t : Tid} : Moves c (.timeout t) (c.view.leave t)
  | giveUp {t : Tid} {m : M} (ho : (c.mutex m).owner = some t) (hold : (c.mutex m).hold = 1)
      (hempty : c.waiters m = []) (hidle : ∀ m, t ∉ c.waiters m) :
      Moves c (.release t m) (c.view.giveUp m t 0xff)
  | handOver {t next : Tid} {m : M} {rest : List Tid} (ho : (c.mutex m).owner = some t)
      (hold : (c.mutex m).hold = 1) (hcons : c.waiters m = next :: rest)
      (hidle : ∀ m, t ∉ c.waiters m) :
      Moves c (.release t m) (c.view.handOver m t next (c.nextPriority m next))
  | settles {os : Rtos} {k : Locks M Tid Nat} (hs : Locks.Settles c.view k) : Moves c (.other os) k

variable {c c' : Mutexes M} {t u : Tid} {m : M} {os : Rtos}

theorem Fresh.mutexesInv (h : Fresh c) : MutexesInv c where
  inv := h.inv
  distinct := h.distinct
  fields m := by
    obtain ⟨hv, ho, hh⟩ := h.mutex m
    simp [Mutex.FieldsOk, ho, hv, hh]
  free m _ := h.waiters m
  taking m t ht := by simp [h.waiters] at ht
  others m t ht := by simp [h.waiters] at ht

/-- The waiting threads of one mutex do not wait for another one. -/
theorem MutexesInv.orderly (h : MutexesInv c) : c.view.Orderly where
  others := h.others
  unique m m' t ht ht' := Option.some.inj ((h.taking m t ht).symm.trans (h.taking m' t ht'))

/-- Threads leave the lists. -/
theorem MutexesInv.shrink {taking : Tid → Option M} (h : MutexesInv c) (hinv : Inv os)
    (hsub : ∀ m u, u ∈ os.suspend_thread (c.mutex m).suspend_thread →
      u ∈ c.waiters m ∧ taking u = c.taking u) :
    MutexesInv { c with os := os, taking := taking } where
  inv := hinv
  distinct := h.distinct
  fields := h.fields
  free m hn := by
    apply List.eq_nil_iff_forall_not_mem.mpr
    intro u hu
    have hmem := (hsub m u hu).1
    rw [h.free m hn] at hmem
    cases hmem
  taking m u hu := by
    obtain ⟨hmem, htaking⟩ := hsub m u hu
    exact htaking.trans (h.taking m u hmem)
  others m u hu := h.others m u (hsub m u hu).1

/-- One mutex changes, and its list. -/
theorem MutexesInv.update {mutex : Mutex} {taking : Tid → Option M} (h : MutexesInv c)
    (hinv : Inv os) (hlist : mutex.suspend_thread = (c.mutex m).suspend_thread)
    (hfields : mutex.FieldsOk)
    (hother : ∀ m', m' ≠ m → ∀ u, u ∈ os.suspend_thread (c.mutex m').suspend_thread →
      u ∈ c.waiters m' ∧ taking u = c.taking u)
    (hself : ∀ u, u ∈ os.suspend_thread (c.mutex m).suspend_thread →
      taking u = some m ∧ mutex.owner ≠ some u)
    (hfree : mutex.owner = none → os.suspend_thread (c.mutex m).suspend_thread = []) :
    MutexesInv { os := os, mutex := Function.update c.mutex m mutex, taking := taking } := by
  have hlists : ∀ m', (Function.update c.mutex m mutex m').suspend_thread =
      (c.mutex m').suspend_thread := by
    intro m'
    by_cases hm : m' = m
    · rw [hm, Function.update_self, hlist]
    · rw [Function.update_of_ne hm]
  refine ⟨hinv, fun m1 m2 heq => ?_, fun m' => ?_, fun m' hn => ?_, fun m' u hu => ?_,
    fun m' u hu => ?_⟩
  · rw [hlists, hlists] at heq
    exact h.distinct m1 m2 heq
  · show (Function.update c.mutex m mutex m').FieldsOk
    by_cases hm : m' = m
    · rw [hm, Function.update_self]
      exact hfields
    · rw [Function.update_of_ne hm]
      exact h.fields m'
  · have hn' : (Function.update c.mutex m mutex m').owner = none := hn
    rw [waiters, hlists]
    by_cases hm : m' = m
    · subst hm
      rw [Function.update_self] at hn'
      exact hfree hn'
    · rw [Function.update_of_ne hm] at hn'
      apply List.eq_nil_iff_forall_not_mem.mpr
      intro u hu
      have hmem := (hother m' hm u hu).1
      rw [h.free m' hn'] at hmem
      cases hmem
  · rw [waiters, hlists] at hu
    by_cases hm : m' = m
    · subst hm
      exact (hself u hu).1
    · obtain ⟨hmem, htaking⟩ := hother m' hm u hu
      exact htaking.trans (h.taking m' u hmem)
  · rw [waiters, hlists] at hu
    show (Function.update c.mutex m mutex m').owner ≠ some u
    by_cases hm : m' = m
    · subst hm
      rw [Function.update_self]
      exact (hself u hu).2
    · rw [Function.update_of_ne hm]
      exact h.others m' u (hother m' hm u hu).1

end Mutexes

/-! ### One take and one release -/

/-- What a take by the running thread `t` does. -/
inductive TakeCase (mu : Mutex) (s : Rtos) (t : Tid) (time : Int) : Rtos → Mutex → Outcome → Prop where
  | returns {os : Rtos} {mutex : Mutex} {err : Int} (hinv : Inv os)
      (hlists : os.suspend_thread = s.suspend_thread) (hcalm : Calm s os)
      (hmutex : mutex = { mu with hold := mutex.hold }) (hfields : mutex.FieldsOk)
      (hwhy : mu.owner = some t ∨ time = 0) : TakeCase mu s t time os mutex (.returned err)
  | acquires {os : Rtos} {err : Int} (hinv : Inv os) (hlists : os.suspend_thread = s.suspend_thread)
      (hcalm : Calm s os) (ho : mu.owner = none)
      (hprio : (s.threads t).current_priority < RT_THREAD_PRIORITY_MAX) : TakeCase mu s t time os
      { mu with
        value := 0, owner := some t, original_priority := (s.threads t).current_priority, hold := 1 }
      (.returned err)
  | blocks {os : Rtos} {o : Tid} (hinv : Inv os)
      (hlists : ∀ l u, u ∈ os.suspend_thread l ↔ u ∈ s.suspend_thread l ∨
        l = mu.suspend_thread ∧ u = t)
      (ho : mu.owner = some o) (hot : o ≠ t) (htime : time ≠ 0)
      (hprio : SetsPriority s os o
        (min (s.threads o).current_priority (s.threads t).current_priority)) :
      TakeCase mu s t time os mu .suspended

/-- What a release by the running thread `t` does. -/
inductive ReleaseCase (mu : Mutex) (s : Rtos) (t : Tid) : Rtos → Mutex → Prop where
  | keeps {os : Rtos} {mutex : Mutex} (hinv : Inv os)
      (hlists : os.suspend_thread = s.suspend_thread) (hcalm : Calm s os)
      (hmutex : mutex = { mu with hold := mutex.hold }) (hfields : mutex.FieldsOk)
      (hwhy : mu.owner = some t → mu.hold ≠ 1) : ReleaseCase mu s t os mutex
  | frees {os : Rtos} (hinv : Inv os) (hlists : os.suspend_thread = s.suspend_thread)
      (ho : mu.owner = some t) (hold : mu.hold = 1) (hempty : s.suspend_thread mu.suspend_thread = [])
      (hprio : SetsPriority s os t mu.original_priority) : ReleaseCase mu s t os
      { mu with value := 1, owner := none, original_priority := 0xff, hold := 0 }
  | hands {s1 os : Rtos} {next : Tid} {rest : List Tid} (hinv : Inv os)
      (hlists : ∀ l, os.suspend_thread l =
        if l = mu.suspend_thread then rest else s.suspend_thread l)
      (ho : mu.owner = some t) (hold : mu.hold = 1)
      (hcons : s.suspend_thread mu.suspend_thread = next :: rest)
      (hprio : SetsPriority s s1 t mu.original_priority)
      (hnext : SetsPriority s1 os next
        (if mu.flag = .fifo then rt_ipc_get_highest_priority s (next :: rest)
          else (s.threads next).current_priority))
      (hfields : (s.threads next).current_priority < RT_THREAD_PRIORITY_MAX) : ReleaseCase mu s t os
      { mu with
        owner := some next, original_priority := (s.threads next).current_priority, hold := 1 }

section

variable {mu : Mutex} {s s' : Rtos} {t : Tid}

theorem changePriorityIf_sets {p q : Nat} {needed : Prop} [Decidable needed]
    (hs : s.changePriorityIf needed t p = some s')
    (hq : q = if needed then p else (s.threads t).current_priority) : SetsPriority s s' t q := by
  rw [Rtos.changePriorityIf] at hs
  by_cases hneeded : needed
  · rw [if_pos hneeded] at hs hq
    rw [hq]
    exact rt_thread_control_priority_sets hs
  · rw [if_neg hneeded] at hs hq
    obtain rfl := Option.some.inj hs
    exact ⟨hq.symm, rfl, rfl, fun u _ => SamePriority.refl _⟩

theorem highest_priority_congr {list : List Tid}
    (h : ∀ u ∈ list, (s'.threads u).current_priority = (s.threads u).current_priority) :
    rt_ipc_get_highest_priority s' list = rt_ipc_get_highest_priority s list := by
  apply List.foldl_ext
  intro p u hu
  rw [h u hu]

theorem rt_mutex_take_cases {time : Int} {os : Rtos} {mutex : Mutex} {outcome : Outcome}
    (h : Inv s) (hfields : mu.FieldsOk) (hrun : Runs s t)
    (hs : mu.rt_mutex_take s time = some (os, mutex, outcome)) :
    TakeCase mu s t time os mutex outcome := by
  let s1 := s.setThread t fun th => { th with error := RT_EOK }
  have h1 : Inv s1 := resetError_inv h RT_EOK
  have hcalm : Calm s s1 := setThread_calm ⟨rfl, rfl, rfl⟩
  have hprio1 : ∀ u, (s1.threads u).current_priority = (s.threads u).current_priority :=
    fun u => (hcalm u).current_priority
  have hrun1 : Runs s1 t := ⟨hrun.1, by simpa [s1] using hrun.2⟩
  have hlt : (s.threads t).current_priority < 32 := (h.thread t (by simp)).priority_lt
  rw [Mutex.rt_mutex_take, hrun.1] at hs
  simp only [Option.bind_eq_bind, Option.bind_some] at hs
  by_cases ho : mu.owner = some t
  · rw [if_pos ho] at hs
    by_cases hmax : mu.hold < RT_MUTEX_HOLD_MAX
    · rw [if_pos hmax] at hs
      cases hs
      rw [Mutex.FieldsOk, ho] at hfields
      refine .returns h1 rfl hcalm rfl ?_ (Or.inl ho)
      simp only [Mutex.FieldsOk, ho]
      exact ⟨hfields.1, by omega, by omega, hfields.2.2.2⟩
    · rw [if_neg hmax] at hs
      cases hs
      exact .returns h1 rfl hcalm rfl hfields (Or.inl ho)
  · rw [if_neg ho] at hs
    by_cases hv : 0 < mu.value
    · rw [if_pos hv] at hs
      cases hnone : mu.owner with
      | some o =>
        simp only [Mutex.FieldsOk, hnone] at hfields
        omega
      | none =>
        simp only [Mutex.FieldsOk, hnone] at hfields
        rw [if_pos (by simp [hfields.2, RT_MUTEX_HOLD_MAX])] at hs
        cases hs
        have hcase : TakeCase mu s t time s1 _ (.returned RT_EOK) := .acquires h1 rfl hcalm hnone hlt
        simpa only [hfields.1, hfields.2, s1, setThread_self] using hcase
    · rw [if_neg hv] at hs
      by_cases htime : time = 0
      · rw [if_pos htime] at hs
        cases hs
        have hcalm2 : Calm s1 (s1.setThread t fun th => { th with error := -RT_ETIMEOUT }) :=
          setThread_calm ⟨rfl, rfl, rfl⟩
        exact .returns (resetError_inv h1 _) rfl (hcalm.trans hcalm2) rfl hfields (Or.inr htime)
      · rw [if_neg htime] at hs
        obtain ⟨o, howner, hs⟩ := Option.bind_eq_some_iff.mp hs
        obtain ⟨s2, hctl, hs⟩ := Option.bind_eq_some_iff.mp hs
        obtain ⟨s3, hwait, hs⟩ := Option.bind_eq_some_iff.mp hs
        cases hs
        have hrep := changePriorityIf_reprioritized h1 (by rw [hprio1]; exact hlt) hctl
        have hsets : SetsPriority s1 s2 o
            (min (s.threads o).current_priority (s.threads t).current_priority) := by
          apply changePriorityIf_sets hctl
          rw [hprio1, hprio1]
          split
          · exact min_eq_right (by omega)
          · exact min_eq_left (by omega)
        have herr : (s2.threads t).error = RT_EOK := (hrep.kept t).error.trans (by simp [s1])
        have hrun2 := (hrep.runs hrun1).2
        have hw := suspendOn_waits hrep.inv hrun2 herr hwait
        have hcalm2 := (suspendOn_calm hrep.inv hrun2 hwait).1
        refine .blocks hw.inv (fun l u => ?_) howner ?_ htime ((hsets.after hcalm).then hcalm2)
        · rw [hw.mem, hrep.suspend]
          rfl
        · rintro rfl
          exact ho howner

theorem rt_mutex_release_cases {os : Rtos} {mutex : Mutex} {err : Int} (h : Inv s)
    (hfields : mu.FieldsOk) (hrun : Runs s t) (hs : mu.rt_mutex_release s = some (os, mutex, err)) :
    ReleaseCase mu s t os mutex := by
  rw [Mutex.rt_mutex_release, hrun.1] at hs
  simp only [Option.bind_eq_bind, Option.bind_some] at hs
  by_cases ho : mu.owner = some t
  · rw [if_neg (not_not.mpr ho)] at hs
    have hheld := hfields
    simp only [Mutex.FieldsOk, ho] at hheld
    obtain ⟨hvalue, hpos, hmax, horig⟩ := hheld
    have hmax' : mu.hold ≤ 255 := hmax
    have hhold : (mu.hold + 255) % 256 = mu.hold - 1 := by omega
    rw [hhold] at hs
    by_cases hlast : mu.hold = 1
    · rw [if_pos (by omega)] at hs
      obtain ⟨s1, hctl, hs⟩ := Option.bind_eq_some_iff.mp hs
      have hrep := changePriorityIf_reprioritized h horig hctl
      have hsets : SetsPriority s s1 t mu.original_priority := by
        apply changePriorityIf_sets hctl
        split
        · rfl
        · exact not_not.mp ‹_›
      rw [Mutex.releaseLast] at hs
      have hlist := hrep.suspend mu.suspend_thread
      simp only [hlist] at hs
      cases hcons : s.suspend_thread mu.suspend_thread with
      | nil =>
        simp only [hcons] at hs
        rw [if_pos (by simp [hvalue, RT_MUTEX_VALUE_MAX])] at hs
        cases hs
        have hcase := ReleaseCase.frees hrep.inv (funext hrep.suspend) ho hlast hcons hsets
        simpa only [hvalue, hlast] using hcase
      | cons next rest =>
        simp only [hcons] at hs
        obtain ⟨s2, hctl2, hs⟩ := Option.bind_eq_some_iff.mp hs
        have hrep2 := changePriorityIf_reprioritized hrep.inv (MutexSystem.highest_priority_lt _ _) hctl2
        have hcons2 : s2.suspend_thread mu.suspend_thread = next :: rest := by
          rw [hrep2.suspend, hlist, hcons]
        obtain ⟨hres, hw⟩ := rt_ipc_list_resume_woken hrep2.inv hcons2
        rw [if_pos (by simp [hlast, RT_MUTEX_HOLD_MAX]), hres] at hs
        cases hs
        -- the running thread is not in the list, so the priorities there are the old ones
        have hsame : ∀ u ∈ next :: rest,
            (s1.threads u).current_priority = (s.threads u).current_priority := by
          intro u hu
          apply (hsets.other u ?_).current_priority
          rintro rfl
          exact hrun.not_waiting h _ (hcons ▸ hu)
        have hnext := hsame next List.mem_cons_self
        have hq := highest_priority_congr hsame
        have hsets2 : SetsPriority s1 s2 next
            (if mu.flag = .fifo then rt_ipc_get_highest_priority s (next :: rest)
              else (s.threads next).current_priority) := by
          apply changePriorityIf_sets hctl2
          rw [hnext, hq]
          by_cases hflag : mu.flag = .fifo
          · rw [if_pos hflag]
            split
            · rfl
            · rename_i hneed
              exact (not_and_not_right.mp hneed hflag).symm
          · rw [if_neg hflag, if_neg fun hc => hflag hc.1]
        have hcase := ReleaseCase.hands hw.inv (fun l => ?_) ho hlast hcons hsets
          (hsets2.then wake_calm) (h.thread next (by simp)).priority_lt
        · simpa only [hnext, hlast] using hcase
        · rw [hw.suspend]
          by_cases hl : l = mu.suspend_thread
          · rw [if_pos hl, if_pos hl, hcons2, List.tail_cons]
          · rw [if_neg hl, if_neg hl, hrep2.suspend, hrep.suspend]
    · rw [if_neg (by omega)] at hs
      cases hs
      refine .keeps h rfl (Calm.refl s) rfl ?_ fun _ => hlast
      simp only [Mutex.FieldsOk, ho]
      exact ⟨hvalue, by omega, by omega, horig⟩
  · rw [if_pos ho] at hs
    cases hs
    exact .keeps (resetError_inv h _) rfl (setThread_calm ⟨rfl, rfl, rfl⟩) rfl hfields
      fun hc => absurd hc ho

end

/-! ### The steps -/

namespace Mutexes

variable {c c' : Mutexes M} {t o : Tid} {m : M} {os : Rtos} {mutex : Mutex}
variable {taking : Tid → Option M}

/-- The view after one mutex has changed. -/
theorem view_update (hlist : mutex.suspend_thread = (c.mutex m).suspend_thread) :
    view { os := os, mutex := Function.update c.mutex m mutex, taking := taking } =
      { owner := Function.update c.view.owner m mutex.owner
        waiting := fun m' u => u ∈ os.suspend_thread (c.mutex m').suspend_thread
        priority := fun u => (os.threads u).current_priority
        saved := Function.update c.view.saved m mutex.original_priority
        own := fun u =>
          if (os.threads u).is_thread = true then some (os.threads u).init_priority else none } := by
  have hlists : ∀ m', (Function.update c.mutex m mutex m').suspend_thread =
      (c.mutex m').suspend_thread := by
    intro m'
    by_cases hm : m' = m
    · rw [hm, Function.update_self, hlist]
    · rw [Function.update_of_ne hm]
  apply Locks.ext
  · funext m'
    exact Function.apply_update (fun _ (mu : Mutex) => mu.owner) c.mutex m mutex m'
  · funext m' u
    simp only [view, waiters, hlists]
  · rfl
  · funext m'
    exact Function.apply_update (fun _ (mu : Mutex) => mu.original_priority) c.mutex m mutex m'
  · rfl

/-- The priorities after the one of the thread `o` is set. -/
theorem view_priority {q : Nat} (h : SetsPriority c.os os o q) :
    (fun u => (os.threads u).current_priority) = Function.update c.view.priority o q := by
  funext u
  by_cases hu : u = o
  · rw [hu, Function.update_self, h.current_priority]
  · rw [Function.update_of_ne hu, (h.other u hu).current_priority]
    rfl

theorem view_own (h : ∀ u, (os.threads u).init_priority = (c.os.threads u).init_priority ∧
    (os.threads u).is_thread = (c.os.threads u).is_thread) :
    (fun u => if (os.threads u).is_thread = true then some (os.threads u).init_priority else none) =
      c.view.own := by
  funext u
  rw [(h u).1, (h u).2]
  rfl

/-- A step of the kernel that only takes threads off the lists. -/
theorem view_calm (hcalm : Calm c.os os) :
    view { c with os := os, taking := taking } =
      { c.view with waiting := fun m u => u ∈ os.suspend_thread (c.mutex m).suspend_thread } := by
  apply Locks.ext
  · rfl
  · rfl
  · funext u
    exact (hcalm u).current_priority
  · rfl
  · exact view_own hcalm.created

/-- Only the number of holds of a mutex changes. -/
theorem MutexesInv.keeps (h : MutexesInv c) (hinv : Inv os)
    (hlists : os.suspend_thread = c.os.suspend_thread) (hcalm : Calm c.os os)
    (hmutex : mutex = { c.mutex m with hold := mutex.hold }) (hfields : mutex.FieldsOk) :
    MutexesInv { c with os := os, mutex := Function.update c.mutex m mutex } ∧
      view { c with os := os, mutex := Function.update c.mutex m mutex } = c.view := by
  have hlist : mutex.suspend_thread = (c.mutex m).suspend_thread := by rw [hmutex]
  have howner : mutex.owner = (c.mutex m).owner := by rw [hmutex]
  have hsaved : mutex.original_priority = (c.mutex m).original_priority := by rw [hmutex]
  constructor
  · apply h.update hinv hlist hfields
    · exact fun m' _ u hu => ⟨by rwa [hlists] at hu, rfl⟩
    · intro u hu
      rw [hlists] at hu
      exact ⟨h.taking m u hu, by rw [howner]; exact h.others m u hu⟩
    · intro hn
      rw [hlists]
      exact h.free m (howner ▸ hn)
  · rw [view_update hlist, howner, hsaved, view_own hcalm.created, hlists]
    apply Locks.ext
    · exact Function.update_eq_self m c.view.owner
    · rfl
    · exact funext fun u => (hcalm u).current_priority
    · exact Function.update_eq_self m c.view.saved
    · rfl

theorem MutexesInv.take {time : Int} (h : MutexesInv c) (hs : c.take t m time = some c') :
    MutexesInv c' ∧ Moves c (.take t m time) c'.view := by
  rw [Mutexes.take] at hs
  by_cases hcall : Runs c.os t ∧ c.taking t = none
  · rw [if_pos hcall] at hs
    obtain ⟨⟨os, mutex, outcome⟩, htake, hs⟩ := Option.bind_eq_some_iff.mp hs
    obtain ⟨hrun, hidle⟩ := hcall
    have hnot : ∀ m, t ∉ c.waiters m := fun m => hrun.not_waiting h.inv _
    cases rt_mutex_take_cases h.inv (h.fields m) hrun htake with
    | returns hinv hlists hcalm hmutex hfields hwhy =>
      obtain rfl := Option.some.inj hs
      obtain ⟨hkeeps, hview⟩ := h.keeps hinv hlists hcalm hmutex hfields
      refine ⟨hkeeps, ?_⟩
      rw [hview]
      refine .stays ?_ ?_
      · rintro t' m' time' heq
        cases heq
        exact hwhy
      · rintro t' m' heq
        cases heq
    | acquires hinv hlists hcalm ho hprio =>
      obtain rfl := Option.some.inj hs
      have hempty : os.suspend_thread (c.mutex m).suspend_thread = [] := by
        rw [hlists]
        exact h.free m ho
      constructor
      · apply h.update hinv
        · rfl
        · have hf := h.fields m
          simp only [Mutex.FieldsOk, ho] at hf
          exact ⟨rfl, Nat.one_pos, (show 1 ≤ RT_MUTEX_HOLD_MAX by decide), hprio⟩
        · exact fun m' _ u hu => ⟨by rwa [hlists] at hu, rfl⟩
        · intro u hu
          rw [hempty] at hu
          cases hu
        · exact fun _ => hempty
      · rw [view_update, view_own hcalm.created, hlists,
          show (fun u => (os.threads u).current_priority) = c.view.priority from
            funext fun u => (hcalm u).current_priority]
        · exact .acquire ho
        · rfl
    | @blocks o hinv hlists ho hot htime hprio =>
      obtain rfl := Option.some.inj hs
      have hmem : ∀ m' u, u ∈ os.suspend_thread (c.mutex m').suspend_thread ↔
          u ∈ c.waiters m' ∨ m' = m ∧ u = t := by
        intro m' u
        rw [hlists]
        refine or_congr_right (and_congr_left fun _ => ⟨h.distinct m' m, ?_⟩)
        rintro rfl
        rfl
      have htaking : ∀ u, u ≠ t → Function.update c.taking t (some m) u = c.taking u :=
        fun u hu => Function.update_of_ne hu ..
      constructor
      · apply h.update hinv rfl (h.fields m)
        · intro m' hm u hu
          have hold := ((hmem m' u).mp hu).resolve_right fun hc => hm hc.1
          exact ⟨hold, htaking u fun heq => hnot m' (heq ▸ hold)⟩
        · intro u hu
          by_cases hut : u = t
          · subst hut
            refine ⟨Function.update_self .., ?_⟩
            rw [ho]
            exact fun heq => hot (Option.some.inj heq)
          · have hold := ((hmem m u).mp hu).resolve_right fun hc => hut hc.2
            exact ⟨(htaking u hut).trans (h.taking m u hold), h.others m u hold⟩
        · intro hn
          rw [ho] at hn
          cases hn
      · rw [view_update, view_own hprio.created, view_priority hprio,
          show (fun m' u => u ∈ os.suspend_thread (c.mutex m').suspend_thread) =
            fun m' u => u ∈ c.waiters m' ∨ m' = m ∧ u = t from
            funext fun m' => funext fun u => propext (hmem m' u),
          show Function.update c.view.owner m (c.mutex m).owner = c.view.owner from
            Function.update_eq_self m c.view.owner,
          show Function.update c.view.saved m (c.mutex m).original_priority = c.view.saved from
            Function.update_eq_self m c.view.saved]
        · exact .wait ho hot htime hnot
        · rfl
  · rw [if_neg hcall] at hs
    cases hs

theorem MutexesInv.release (h : MutexesInv c) (hs : c.release t m = some c') :
    MutexesInv c' ∧ Moves c (.release t m) c'.view := by
  rw [Mutexes.release] at hs
  by_cases hcall : Runs c.os t ∧ c.taking t = none
  · rw [if_pos hcall] at hs
    obtain ⟨⟨os, mutex, err⟩, hrel, hs⟩ := Option.bind_eq_some_iff.mp hs
    obtain ⟨hrun, hidle⟩ := hcall
    have hnot : ∀ m, t ∉ c.waiters m := fun m => hrun.not_waiting h.inv _
    obtain rfl := Option.some.inj hs
    cases rt_mutex_release_cases h.inv (h.fields m) hrun hrel with
    | keeps hinv hlists hcalm hmutex hfields hwhy =>
      obtain ⟨hkeeps, hview⟩ := h.keeps hinv hlists hcalm hmutex hfields
      refine ⟨hkeeps, ?_⟩
      rw [hview]
      refine .stays ?_ ?_
      · rintro t' m' time' heq
        cases heq
      · rintro t' m' heq
        cases heq
        exact hwhy
    | frees hinv hlists ho hold hempty hprio =>
      constructor
      · apply h.update hinv
        · rfl
        · exact ⟨rfl, rfl⟩
        · exact fun m' _ u hu => ⟨by rwa [hlists] at hu, rfl⟩
        · intro u hu
          rw [hlists, hempty] at hu
          cases hu
        · intro _
          rw [hlists]
          exact hempty
      · rw [view_update, view_own hprio.created, view_priority hprio, hlists]
        · exact .giveUp ho hold hempty hnot
        · rfl
    | @hands s1 _ next rest hinv hlists ho hold hcons hprio hnext hlt =>
      have hnodup := h.inv.suspend_nodup (c.mutex m).suspend_thread
      rw [hcons] at hnodup
      obtain ⟨hfirst, -⟩ := List.nodup_cons.mp hnodup
      have hin : next ∈ c.waiters m := by
        rw [waiters, hcons]
        exact List.mem_cons_self
      have hmem : ∀ m' u, u ∈ os.suspend_thread (c.mutex m').suspend_thread ↔
          u ∈ c.waiters m' ∧ u ≠ next := by
        intro m' u
        rw [hlists]
        by_cases hm : m' = m
        · subst hm
          rw [if_pos rfl, waiters, hcons, List.mem_cons]
          constructor
          · intro hu
            exact ⟨Or.inr hu, fun heq => hfirst (heq ▸ hu)⟩
          · rintro ⟨hu, hne⟩
            exact hu.resolve_left hne
        · rw [if_neg fun heq => hm (h.distinct m' m heq)]
          refine ⟨fun hu => ⟨hu, ?_⟩, fun hu => hu.1⟩
          rintro rfl
          exact hm (h.orderly.unique m' m u hu hin)
      constructor
      · apply h.update hinv
        · rfl
        · have hf := h.fields m
          simp only [Mutex.FieldsOk, ho] at hf
          exact ⟨hf.1, Nat.one_pos, (show 1 ≤ RT_MUTEX_HOLD_MAX by decide), hlt⟩
        · exact fun m' _ u hu => ⟨((hmem m' u).mp hu).1, rfl⟩
        · intro u hu
          obtain ⟨hu, hne⟩ := (hmem m u).mp hu
          exact ⟨h.taking m u hu, fun heq => hne (Option.some.inj heq).symm⟩
        · intro hn
          cases hn
      · have hown : ∀ u, (os.threads u).init_priority = (c.os.threads u).init_priority ∧
            (os.threads u).is_thread = (c.os.threads u).is_thread := fun u =>
          ⟨(hnext.created u).1.trans (hprio.created u).1,
            (hnext.created u).2.trans (hprio.created u).2⟩
        have hprios : (fun u => (os.threads u).current_priority) =
            Function.update (Function.update c.view.priority t (c.mutex m).original_priority) next
              (c.nextPriority m next) := by
          rw [view_priority (c := { c with os := s1 }) hnext,
            show (view { c with os := s1 }).priority = _ from view_priority hprio, nextPriority,
            waiters, hcons]
        rw [view_update, view_own hown, hprios,
          show (fun m' u => u ∈ os.suspend_thread (c.mutex m').suspend_thread) =
            fun m' u => u ∈ c.waiters m' ∧ u ≠ next from
            funext fun m' => funext fun u => propext (hmem m' u)]
        · exact .handOver ho hold hcons hnot
        · rfl
  · rw [if_neg hcall] at hs
    cases hs

theorem MutexesInv.takeResumed (h : MutexesInv c) (hs : c.takeResumed t = some c') :
    MutexesInv c' ∧ c'.view = c.view := by
  rw [Mutexes.takeResumed] at hs
  by_cases hrun : Runs c.os t
  · rw [if_pos hrun] at hs
    obtain rfl := Option.some.inj hs
    refine ⟨h.shrink h.inv fun m u hu => ⟨hu, Function.update_of_ne ?_ ..⟩, rfl⟩
    rintro rfl
    exact hrun.not_waiting h.inv _ hu
  · rw [if_neg hrun] at hs
    cases hs

theorem MutexesInv.timeout (h : MutexesInv c) (hs : c.timeout t = some c') :
    MutexesInv c' ∧ c'.view = c.view.leave t := by
  rw [Mutexes.timeout] at hs
  by_cases hact : (c.os.threads t).thread_timer.activated = true
  · rw [if_pos hact] at hs
    obtain ⟨os, hos, rfl⟩ := Option.map_eq_some_iff.mp hs
    have hto := timerExpires_timedOut h.inv hos
    have hmem : ∀ m u, u ∈ os.suspend_thread (c.mutex m).suspend_thread ↔
        u ∈ c.waiters m ∧ u ≠ t := by
      intro m u
      rw [hto.suspend, List.mem_filter]
      simp [waiters]
    refine ⟨h.shrink hto.inv fun m u hu => ⟨((hmem m u).mp hu).1, rfl⟩, ?_⟩
    rw [view_calm (timerExpires_calm hos),
      show (fun m u => u ∈ os.suspend_thread (c.mutex m).suspend_thread) =
        fun m u => u ∈ c.waiters m ∧ u ≠ t from
        funext fun m => funext fun u => propext (hmem m u)]
    rfl
  · rw [if_neg hact] at hs
    cases hs

theorem MutexesInv.schedule (h : MutexesInv c) (hs : c.os.rt_schedule = some os) :
    MutexesInv { c with os := os } ∧ view { c with os := os } = c.view := by
  have hlists : os.suspend_thread = c.os.suspend_thread := funext (rt_schedule_waits h.inv hs).1
  refine ⟨h.shrink (rt_schedule_inv h.inv hs) fun m u hu => ⟨by rwa [hlists] at hu, rfl⟩, ?_⟩
  rw [view_calm (rt_schedule_calm hs), hlists]
  rfl

theorem MutexesInv.apart (h : MutexesInv c) (ha : c.Apart os) :
    MutexesInv { c with os := os } ∧ Locks.Settles c.view (view { c with os := os }) := by
  have hwaiting : (view { c with os := os }).waiting = c.view.waiting := by
    funext m u
    show (u ∈ os.suspend_thread (c.mutex m).suspend_thread) = _
    rw [ha.suspend]
    rfl
  refine ⟨h.shrink ha.inv fun m u hu => ⟨ha.suspend m ▸ hu, rfl⟩, rfl, hwaiting, rfl, fun t => ?_⟩
  rcases ha.thread t with hsame | ⟨hprio, hended⟩ | ⟨hidle, hcreated⟩
  · refine Or.inl ⟨hsame.current_priority, fun p hp => ?_⟩
    simpa only [view, hsame.init_priority, hsame.is_thread] using hp
  · refine Or.inl ⟨hprio, fun p hp => ?_⟩
    simp only [view, hended] at hp
    cases hp
  · refine Or.inr ⟨hidle, fun p hp => ?_⟩
    simp only [view] at hp ⊢
    rw [hcreated]
    split at hp
    · exact Option.some.inj hp
    · cases hp

theorem MutexesInv.next {l : MutexesStep M} (h : MutexesInv c) (hs : mutexesMachine.step c l c') :
    MutexesInv c' ∧ Moves c l c'.view := by
  rcases hs with hs | ⟨os, rfl, rfl, ha⟩
  · cases l with
    | take t m time => exact h.take hs
    | release t m => exact h.release hs
    | takeResumed t =>
      obtain ⟨h', hview⟩ := h.takeResumed hs
      rw [hview]
      exact ⟨h', .stays (fun _ _ _ heq => by cases heq) (fun _ _ heq => by cases heq)⟩
    | timeout t =>
      obtain ⟨h', hview⟩ := h.timeout hs
      rw [hview]
      exact ⟨h', .leave⟩
    | schedule =>
      obtain ⟨os, hos, rfl⟩ := Option.map_eq_some_iff.mp hs
      obtain ⟨h', hview⟩ := h.schedule hos
      rw [hview]
      exact ⟨h', .stays (fun _ _ _ heq => by cases heq) (fun _ _ heq => by cases heq)⟩
    | other os => cases hs
  · obtain ⟨h', hs⟩ := h.apart ha
    exact ⟨h', .settles hs⟩

theorem reachable_mutexesInv (hr : mutexesMachine.Reachable c) : MutexesInv c := by
  apply hr.invariant
  · exact fun c h => h.mutexesInv
  · exact fun c l c' _ h hs => (h.next hs).1

end Mutexes

end Ab32Vg1.Kernel
