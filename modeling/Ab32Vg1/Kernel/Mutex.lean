import Ab32Vg1.Kernel.Waiting

/-! The mutex of `ipc.c`: it has at most one owner, and its fields agree at every depth. -/

namespace Ab32Vg1.Kernel

open ProofKit Rtos

def RT_MUTEX_VALUE_MAX : Nat := 65535

def RT_MUTEX_HOLD_MAX : Nat := 255

/-- `struct rt_mutex`; `suspend_thread` names its list of waiting threads. -/
structure Mutex where
  value : Nat
  original_priority : Nat
  hold : Nat
  owner : Option Tid
  suspend_thread : Nat
  flag : IpcFlag
  deriving DecidableEq, Repr

/-- `rt_ipc_get_highest_priority` -/
def rt_ipc_get_highest_priority (s : Rtos) (list : List Tid) : Nat :=
  list.foldl (fun priority t => min priority (s.threads t).current_priority)
    (RT_THREAD_PRIORITY_MAX - 1)

/-- A change of priority that is made only when it is needed. -/
def Rtos.changePriorityIf (s : Rtos) (needed : Prop) [Decidable needed] (t : Tid) (priority : Nat) :
    Option Rtos :=
  if needed then s.rt_thread_control_priority t priority else some s

namespace Mutex

/-- `rt_mutex_take` up to its call of `rt_schedule`. -/
def rt_mutex_take (mutex : Mutex) (s : Rtos) (time : Int) : Option (Rtos × Mutex × Outcome) := do
  let thread ← s.rt_current_thread
  let s := s.setThread thread fun th => { th with error := RT_EOK }
  let priority := (s.threads thread).current_priority
  if mutex.owner = some thread then
    if mutex.hold < RT_MUTEX_HOLD_MAX then
      return (s, { mutex with hold := mutex.hold + 1 }, .returned RT_EOK)
    else return (s, mutex, .returned (-RT_EFULL))
  else if 0 < mutex.value then
    let mutex :=
      { mutex with
        value := mutex.value - 1, owner := some thread, original_priority := priority }
    if mutex.hold < RT_MUTEX_HOLD_MAX then
      return (s, { mutex with hold := mutex.hold + 1 }, .returned RT_EOK)
    else return (s, mutex, .returned (-RT_EFULL))
  else if time = 0 then
    let s := s.setThread thread fun th => { th with error := -RT_ETIMEOUT }
    return (s, mutex, .returned (-RT_ETIMEOUT))
  else
    let owner ← mutex.owner
    let s ← s.changePriorityIf (priority < (s.threads owner).current_priority) owner priority
    let s ← s.suspendOn mutex.suspend_thread thread mutex.flag time
    return (s, mutex, .suspended)

/-- What `rt_mutex_take` returns when its thread goes on after `rt_schedule`. -/
def takeResumed (s : Rtos) (thread : Tid) : Int :=
  if (s.threads thread).error ≠ RT_EOK then (s.threads thread).error else RT_EOK

/-- The part of `rt_mutex_release` in which the last hold ends. -/
def releaseLast (mutex : Mutex) (s : Rtos) : Option (Rtos × Mutex × Int) :=
  match s.suspend_thread mutex.suspend_thread with
  | thread :: waiting => do
    let priority := (s.threads thread).current_priority
    let mutex := { mutex with owner := some thread, original_priority := priority }
    let max_priority_in_queue := rt_ipc_get_highest_priority s (thread :: waiting)
    let s ← s.changePriorityIf (mutex.flag = .fifo ∧ priority ≠ max_priority_in_queue) thread
      max_priority_in_queue
    if mutex.hold < RT_MUTEX_HOLD_MAX then
      let s ← s.rt_ipc_list_resume mutex.suspend_thread
      return (s, { mutex with hold := mutex.hold + 1 }, RT_EOK)
    else return (s, mutex, -RT_EFULL)
  | [] =>
    if mutex.value < RT_MUTEX_VALUE_MAX then
      some (s, { mutex with value := mutex.value + 1, owner := none, original_priority := 0xff },
        RT_EOK)
    else some (s, mutex, -RT_EFULL)

/-- `rt_mutex_release` up to its call of `rt_schedule`. -/
def rt_mutex_release (mutex : Mutex) (s : Rtos) : Option (Rtos × Mutex × Int) := do
  let thread ← s.rt_current_thread
  if mutex.owner ≠ some thread then
    return (s.setThread thread fun th => { th with error := -RT_ERROR }, mutex, -RT_ERROR)
  else
    let mutex := { mutex with hold := (mutex.hold + 255) % 256 }
    if mutex.hold = 0 then
      let s ← s.changePriorityIf
        (mutex.original_priority ≠ (s.threads thread).current_priority) thread
        mutex.original_priority
      mutex.releaseLast s
    else return (s, mutex, RT_EOK)

end Mutex

/-! ### The machine -/

/-- A mutex and the threads that use it: `taking` holds of a thread that waits in `rt_mutex_take` or
has yet to return from it.  The numbers of the takes and releases of each thread that returned
`RT_EOK` are not in the code. -/
structure MutexSystem where
  os : Rtos
  mutex : Mutex
  taking : Tid → Bool
  taken : Tid → Nat
  released : Tid → Nat

inductive MutexStep where
  | take (t : Tid) (time : Int)
  | takeResumed (t : Tid)
  | release (t : Tid)
  | timeout (t : Tid)
  | schedule
  | other (os : Rtos)

namespace MutexSystem

/-- The threads in the list of the mutex. -/
def suspended (c : MutexSystem) : List Tid := c.os.suspend_thread c.mutex.suspend_thread

/-- One more for a thread, when its operation returns `RT_EOK`. -/
def count (n : Tid → Nat) (t : Tid) (err : Int) : Tid → Nat :=
  if err = RT_EOK then Function.update n t (n t + 1) else n

def take (c : MutexSystem) (t : Tid) (time : Int) : Option MutexSystem :=
  if Runs c.os t ∧ c.taking t = false then do
    let (os, mutex, outcome) ← c.mutex.rt_mutex_take c.os time
    match outcome with
    | .returned err => return { c with os := os, mutex := mutex, taken := count c.taken t err }
    | .suspended =>
      return { c with os := os, mutex := mutex, taking := Function.update c.taking t true }
  else none

def takeResumed (c : MutexSystem) (t : Tid) : Option MutexSystem :=
  if Runs c.os t ∧ c.taking t = true then
    some { c with
      taking := Function.update c.taking t false
      taken := count c.taken t (Mutex.takeResumed c.os t) }
  else none

def release (c : MutexSystem) (t : Tid) : Option MutexSystem :=
  if Runs c.os t ∧ c.taking t = false then do
    let (os, mutex, err) ← c.mutex.rt_mutex_release c.os
    return { c with os := os, mutex := mutex, released := count c.released t err }
  else none

/-- The timer of a thread that uses the mutex expires. -/
def timeout (c : MutexSystem) (t : Tid) : Option MutexSystem :=
  if c.taking t = true ∧ (c.os.threads t).thread_timer.activated = true then
    (c.os.timerExpires t).map fun os => { c with os := os }
  else none

def step (c : MutexSystem) : MutexStep → Option MutexSystem
  | .take t time => c.take t time
  | .takeResumed t => c.takeResumed t
  | .release t => c.release t
  | .timeout t => c.timeout t
  | .schedule => c.os.rt_schedule.map fun os => { c with os := os }
  | .other _ => none

/-- A thread that has been resumed to return `RT_EOK`, and has not returned. -/
def ResumedOk (c : MutexSystem) (t : Tid) : Prop :=
  c.taking t = true ∧ t ∉ c.suspended ∧ (c.os.threads t).error = RT_EOK

instance (c : MutexSystem) (t : Tid) : Decidable (c.ResumedOk t) :=
  inferInstanceAs (Decidable (_ ∧ _ ∧ _))

/-- The takes of a thread that returned `RT_EOK`, or have been resumed to return it. -/
def successes (c : MutexSystem) (t : Tid) : Nat := c.taken t + if c.ResumedOk t then 1 else 0

/-- The mutex after `rt_mutex_init`, used by nobody. -/
structure Fresh (c : MutexSystem) : Prop where
  inv : Inv c.os
  value : c.mutex.value = 1
  owner : c.mutex.owner = none
  hold : c.mutex.hold = 0
  suspended : c.suspended = []
  taking : ∀ t, c.taking t = false
  taken : ∀ t, c.taken t = 0
  released : ∀ t, c.released t = 0

end MutexSystem

def mutexMachine : Machine MutexSystem MutexStep where
  start := MutexSystem.Fresh
  step c l c' := c.step l = some c' ∨ ∃ os, l = .other os ∧ c' = { c with os := os } ∧
    Elsewhere (· = c.mutex.suspend_thread) (fun t => c.taking t = true) c.os os

/-- The fields of the mutex agree, the owner is the one thread that holds it, and a waiting thread
owns the mutex only once it is resumed to return `RT_EOK`. -/
structure MutexContract (c : MutexSystem) : Prop where
  free : c.mutex.value = 1 ↔ c.mutex.owner = none ∧ c.mutex.hold = 0
  waiters : c.suspended ≠ [] → c.mutex.owner ≠ none ∧ c.mutex.value = 0
  hold : ∀ t, c.mutex.owner = some t → c.mutex.hold + c.released t = c.successes t
  others : ∀ t, c.mutex.owner ≠ some t → c.released t = c.successes t
  exclusive : ∀ t u, c.released t < c.taken t → c.released u < c.taken u → t = u
  resumed : ∀ t, c.ResumedOk t → c.mutex.owner = some t
  waiting : ∀ t, c.taking t = true → ¬c.ResumedOk t → c.mutex.owner ≠ some t
  handOver : ∀ t c', c.release t = some c' → c.mutex.owner = some t → c.mutex.hold = 1 →
    ∀ next rest, c.suspended = next :: rest → c'.mutex.owner = some next ∧ c'.suspended = rest ∧
      ∀ u, c'.ResumedOk u ↔ u = next
  timeout : ∀ t c', c.takeResumed t = some c' → Mutex.takeResumed c.os t = -RT_ETIMEOUT →
    c'.mutex.owner ≠ some t

/-! ### The invariant -/

/-- The fields of a free mutex and of a held one. -/
def Mutex.FieldsOk (mutex : Mutex) : Prop :=
  match mutex.owner with
  | none => mutex.value = 1 ∧ mutex.hold = 0
  | some _ => mutex.value = 0 ∧ 0 < mutex.hold ∧ mutex.hold ≤ RT_MUTEX_HOLD_MAX ∧
      mutex.original_priority < RT_THREAD_PRIORITY_MAX

theorem changePriorityIf_reprioritized {s s' : Rtos} {t : Tid} {p : Nat} {needed : Prop}
    [Decidable needed] (h : Inv s) (hp : p < 32)
    (hs : s.changePriorityIf needed t p = some s') : Reprioritized s s' := by
  unfold Rtos.changePriorityIf at hs
  by_cases hneeded : needed
  · rw [if_pos hneeded] at hs
    exact rt_thread_control_priority_reprioritized h hp hs
  · rw [if_neg hneeded] at hs
    exact Option.some.inj hs ▸ Reprioritized.refl h

namespace MutexSystem

/-- The holds of a thread. -/
def holds (c : MutexSystem) (t : Tid) : Nat := if c.mutex.owner = some t then c.mutex.hold else 0

structure MutexInv (c : MutexSystem) : Prop where
  inv : Inv c.os
  listed : ∀ t ∈ c.suspended, c.taking t = true ∧ (c.os.threads t).error = RT_EOK
  timer : ∀ t, c.taking t = true → (c.os.threads t).thread_timer.activated = true →
    t ∈ c.suspended
  fields : c.mutex.FieldsOk
  free : c.mutex.owner = none → c.suspended = []
  counts : ∀ t, c.holds t + c.released t = c.successes t
  owner : ∀ t, c.taking t = true → (c.ResumedOk t ↔ c.mutex.owner = some t)

variable {c c' : MutexSystem} {t u : Tid}

/-! What the counters depend on. -/

theorem count_self (n : Tid → Nat) : count n t RT_EOK t = n t + 1 := by simp [count]

theorem count_of_ne (n : Tid → Nat) (err : Int) (hut : u ≠ t) : count n t err u = n u := by
  unfold count
  split
  · exact Function.update_of_ne hut ..
  · rfl

theorem count_error {err : Int} (n : Tid → Nat) (herr : err ≠ RT_EOK) : count n t err = n :=
  if_neg herr

theorem resumedOk_congr (htaking : c'.taking u = c.taking u)
    (hmem : u ∈ c'.suspended ↔ u ∈ c.suspended)
    (herr : c.taking u = true → (c'.os.threads u).error = (c.os.threads u).error) :
    c'.ResumedOk u ↔ c.ResumedOk u := by
  unfold ResumedOk
  rw [htaking, hmem]
  refine and_congr_right fun ht => ?_
  rw [herr ht]

theorem not_resumedOk (ht : c.taking u = false) : ¬c.ResumedOk u := by
  simp [ResumedOk, ht]

theorem successes_congr (htaken : c'.taken u = c.taken u) (hres : c'.ResumedOk u ↔ c.ResumedOk u) :
    c'.successes u = c.successes u := by
  unfold successes
  rw [htaken]
  simp only [hres]

theorem Fresh.mutexInv (h : Fresh c) : MutexInv c where
  inv := h.inv
  listed t ht := by simp [h.suspended] at ht
  timer t ht := by simp [h.taking] at ht
  fields := by simp [Mutex.FieldsOk, h.owner, h.value, h.hold]
  free _ := h.suspended
  counts t := by
    simp [holds, successes, h.owner, h.taken, h.released, not_resumedOk (h.taking t)]
  owner t ht := by simp [h.taking] at ht

/-- Steps that leave the mutex and its threads alone. -/
theorem MutexInv.elsewhere {os : Rtos} (h : MutexInv c)
    (he : Elsewhere (· = c.mutex.suspend_thread) (fun t => c.taking t = true) c.os os) :
    MutexInv { c with os := os } := by
  have hlist : os.suspend_thread c.mutex.suspend_thread = c.suspended := he.suspend _ rfl
  let c1 : MutexSystem := { c with os := os }
  have hres : ∀ u, c1.ResumedOk u ↔ c.ResumedOk u := fun u =>
    resumedOk_congr rfl (by rw [suspended, hlist]) fun hu => (he.kept u hu).error
  have hsucc : ∀ u, c1.successes u = c.successes u := fun u => successes_congr rfl (hres u)
  refine ⟨he.inv, fun t ht => ?_, fun t ht hact => ?_, h.fields, fun hn => hlist.trans (h.free hn),
    fun t => (h.counts t).trans (hsucc t).symm, fun t ht => (hres t).trans (h.owner t ht)⟩
  · obtain ⟨h1, h2⟩ := h.listed t (hlist ▸ ht)
    exact ⟨h1, (he.kept t h1).error.trans h2⟩
  · show t ∈ os.suspend_thread c.mutex.suspend_thread
    rw [hlist]
    exact h.timer t ht ((he.kept t ht).timer hact)

/-- The owner of a mutex with waiting threads, and of one that is not free. -/
theorem MutexInv.held (h : MutexInv c) (ho : c.mutex.owner ≠ none) :
    c.mutex.value = 0 ∧ 0 < c.mutex.hold ∧ c.mutex.hold ≤ RT_MUTEX_HOLD_MAX ∧
      c.mutex.original_priority < RT_THREAD_PRIORITY_MAX := by
  obtain ⟨t, ht⟩ := Option.ne_none_iff_exists'.mp ho
  have hf := h.fields
  simpa [Mutex.FieldsOk, ht] using hf

theorem MutexInv.available (h : MutexInv c) (hv : 0 < c.mutex.value) :
    c.mutex.owner = none ∧ c.mutex.value = 1 ∧ c.mutex.hold = 0 := by
  cases ho : c.mutex.owner with
  | none =>
    have hf := h.fields
    rw [Mutex.FieldsOk, ho] at hf
    exact ⟨rfl, hf⟩
  | some t =>
    have hzero := (h.held (by simp [ho])).1
    omega

/-- The running thread begins to wait. -/
theorem MutexInv.begins {os : Rtos} (h : MutexInv c) (hidle : c.taking t = false)
    (ho : c.mutex.owner ≠ none) (hne : c.mutex.owner ≠ some t)
    (hw : Waits c.os os c.mutex.suspend_thread t) :
    MutexInv { c with os := os, taking := Function.update c.taking t true } := by
  have hmem : ∀ u, u ∈ os.suspend_thread c.mutex.suspend_thread ↔ u ∈ c.suspended ∨ u = t := by
    intro u
    rw [hw.mem]
    simp [suspended]
  let c1 : MutexSystem := { c with os := os, taking := Function.update c.taking t true }
  have hnew : ¬c1.ResumedOk t := fun hr => hr.2.1 ((hmem t).mpr (Or.inr rfl))
  have hres : ∀ u, c1.ResumedOk u ↔ c.ResumedOk u := by
    intro u
    by_cases hut : u = t
    · subst hut
      exact iff_of_false hnew (not_resumedOk hidle)
    · refine resumedOk_congr (Function.update_of_ne hut ..) ?_ fun _ => by rw [hw.other u hut]
      exact (hmem u).trans (or_iff_left hut)
  have hsucc : ∀ u, c1.successes u = c.successes u := fun u => successes_congr rfl (hres u)
  refine ⟨hw.inv, fun u hu => ?_, fun u hu hact => ?_, h.fields, fun hn => absurd hn ho,
    fun u => (h.counts u).trans (hsucc u).symm, fun u hu => ?_⟩
  · by_cases hut : u = t
    · subst hut
      exact ⟨by simp, hw.error⟩
    · obtain ⟨h1, h2⟩ := h.listed u (((hmem u).mp hu).resolve_right hut)
      exact ⟨by simpa [hut] using h1, by rw [hw.other u hut]; exact h2⟩
  · refine (hmem u).mpr ?_
    by_cases hut : u = t
    · exact Or.inr hut
    · have hu' : c.taking u = true := by simpa [hut] using hu
      have hact' : (os.threads u).thread_timer.activated = true := hact
      rw [hw.other u hut] at hact'
      exact Or.inl (h.timer u hu' hact')
  · by_cases hut : u = t
    · subst hut
      exact iff_of_false hnew hne
    · have hu' : c.taking u = true := by simpa [hut] using hu
      exact (hres u).trans (h.owner u hu')

/-- A thread that is not the owner of any hold gets one more. -/
theorem MutexInv.gains {mutex : Mutex} (h : MutexInv c) (hidle : c.taking t = false)
    (hfields : mutex.FieldsOk) (howner : mutex.owner = some t)
    (hlist : mutex.suspend_thread = c.mutex.suspend_thread)
    (hold : mutex.hold = c.holds t + 1) (hother : ∀ u, u ≠ t → c.mutex.owner ≠ some u) :
    MutexInv { c with mutex := mutex, taken := count c.taken t RT_EOK } := by
  let c1 : MutexSystem := { c with mutex := mutex, taken := count c.taken t RT_EOK }
  have hsusp : c1.suspended = c.suspended := congrArg c.os.suspend_thread hlist
  have hres : ∀ u, c1.ResumedOk u ↔ c.ResumedOk u := fun u =>
    resumedOk_congr rfl (by rw [hsusp]) fun _ => rfl
  refine ⟨h.inv, fun u hu => h.listed u (hsusp ▸ hu), fun u hu hact => ?_, hfields,
    fun hn => ?_, fun u => ?_, fun u hu => ?_⟩
  · show u ∈ c1.suspended
    rw [hsusp]
    exact h.timer u hu hact
  · have hn' : mutex.owner = none := hn
    rw [howner] at hn'
    cases hn'
  · have hcount := h.counts u
    by_cases hut : u = t
    · subst hut
      have hzero : c.successes u = c.taken u := by simp [successes, not_resumedOk hidle]
      have hzero' : c1.successes u = c.taken u + 1 := by
        rw [successes, if_neg (mt (hres u).mp (not_resumedOk hidle))]
        exact count_self c.taken
      show c1.holds u + c.released u = c1.successes u
      rw [hzero', holds, if_pos howner]
      show mutex.hold + _ = _
      omega
    · have hsame : c1.successes u = c.successes u :=
        successes_congr (count_of_ne c.taken RT_EOK hut) (hres u)
      have hholds : c1.holds u = c.holds u := by
        have h1 : mutex.owner ≠ some u := by
          rw [howner]
          exact fun heq => hut (Option.some.inj heq).symm
        rw [holds, holds, if_neg h1, if_neg (hother u hut)]
      show c1.holds u + c.released u = c1.successes u
      rw [hsame, hholds]
      exact hcount
  · refine (hres u).trans ((h.owner u hu).trans ?_)
    have hut : u ≠ t := by
      rintro rfl
      have hu' : c.taking u = true := hu
      rw [hidle] at hu'
      cases hu'
    refine iff_of_false (hother u hut) ?_
    show mutex.owner ≠ some u
    rw [howner]
    exact fun heq => hut (Option.some.inj heq).symm

theorem MutexInv.take {time : Int} (h : MutexInv c) (hs : c.take t time = some c') :
    MutexInv c' := by
  unfold MutexSystem.take at hs
  by_cases hcall : Runs c.os t ∧ c.taking t = false
  · rw [if_pos hcall] at hs
    obtain ⟨⟨os, mutex, outcome⟩, htake, hs⟩ := Option.bind_eq_some_iff.mp hs
    obtain ⟨hrun, hidle⟩ := hcall
    let s1 := c.os.setThread t fun th => { th with error := RT_EOK }
    have h1 : MutexInv { c with os := s1 } := h.elsewhere (setError_elsewhere h.inv (by simp [hidle]))
    have hrun1 : Runs s1 t := ⟨hrun.1, by simpa [s1] using hrun.2⟩
    have hprio : (s1.threads t).current_priority < 32 := (h1.inv.thread t (by simp)).priority_lt
    unfold Mutex.rt_mutex_take at htake
    rw [hrun.1] at htake
    simp only [Option.bind_eq_bind, Option.bind_some] at htake
    by_cases ho : c.mutex.owner = some t
    · -- a nested take
      rw [if_pos ho] at htake
      have hheld := h.held (by simp [ho])
      by_cases hmax : c.mutex.hold < RT_MUTEX_HOLD_MAX
      · rw [if_pos hmax] at htake
        cases htake
        obtain rfl := Option.some.inj hs
        apply h1.gains hidle
        · simp only [Mutex.FieldsOk, ho]
          exact ⟨hheld.1, by omega, by omega, hheld.2.2.2⟩
        · exact ho
        · rfl
        · exact congrArg (· + 1) (if_pos ho).symm
        · intro u hut heq
          exact hut (Option.some.inj (heq.symm.trans ho))
      · rw [if_neg hmax] at htake
        cases htake
        obtain rfl := Option.some.inj hs
        rw [count_error _ (by decide)]
        exact h1
    · rw [if_neg ho] at htake
      by_cases hv : 0 < c.mutex.value
      · -- a free mutex
        rw [if_pos hv] at htake
        obtain ⟨hnone, hvalue, hhold⟩ := h.available hv
        rw [if_pos (by simp [hhold, RT_MUTEX_HOLD_MAX])] at htake
        cases htake
        obtain rfl := Option.some.inj hs
        apply h1.gains hidle
        · simp only [Mutex.FieldsOk]
          exact ⟨by omega, by omega, by simp [hhold, RT_MUTEX_HOLD_MAX], hprio⟩
        · rfl
        · rfl
        · show c.mutex.hold + 1 = _
          rw [hhold, holds, if_neg ho]
        · intro u _ heq
          have heq' : c.mutex.owner = some u := heq
          rw [hnone] at heq'
          cases heq'
      · rw [if_neg hv] at htake
        by_cases htime : time = 0
        · rw [if_pos htime] at htake
          cases htake
          obtain rfl := Option.some.inj hs
          rw [count_error _ (by decide)]
          exact h1.elsewhere (setError_elsewhere h1.inv (by simp [hidle]))
        · rw [if_neg htime] at htake
          obtain ⟨owner, howner, htake⟩ := Option.bind_eq_some_iff.mp htake
          obtain ⟨s2, hctl, htake⟩ := Option.bind_eq_some_iff.mp htake
          obtain ⟨s3, hwait, htake⟩ := Option.bind_eq_some_iff.mp htake
          cases htake
          obtain rfl := Option.some.inj hs
          have hctl := changePriorityIf_reprioritized h1.inv hprio hctl
          have h2 : MutexInv { c with os := s2 } := h1.elsewhere hctl.elsewhere
          have herr : (s2.threads t).error = RT_EOK :=
            (hctl.kept t).error.trans (by simp [s1])
          exact h2.begins hidle (by simp [howner]) ho
            (suspendOn_waits h2.inv (hctl.runs hrun1).2 herr hwait)
  · rw [if_neg hcall] at hs
    cases hs

/-- A thread returns from `rt_mutex_take`. -/
theorem MutexInv.takeResumed (h : MutexInv c) (hs : c.takeResumed t = some c') : MutexInv c' := by
  unfold MutexSystem.takeResumed at hs
  by_cases hrun : Runs c.os t ∧ c.taking t = true
  · rw [if_pos hrun] at hs
    obtain rfl := Option.some.inj hs
    obtain ⟨hrun, htaking⟩ := hrun
    have hnot : t ∉ c.suspended := hrun.not_waiting h.inv _
    let c1 : MutexSystem :=
      { c with
        taking := Function.update c.taking t false
        taken := count c.taken t (Mutex.takeResumed c.os t) }
    have hgone : ¬c1.ResumedOk t := not_resumedOk (Function.update_self ..)
    have hres : ∀ u, u ≠ t → (c1.ResumedOk u ↔ c.ResumedOk u) := fun u hut =>
      resumedOk_congr (Function.update_of_ne hut ..) Iff.rfl fun _ => rfl
    refine ⟨h.inv, fun u hu => ?_, fun u hu hact => ?_, h.fields, h.free, fun u => ?_,
      fun u hu => ?_⟩
    · have hut : u ≠ t := fun heq => hnot (heq ▸ hu)
      obtain ⟨h1, h2⟩ := h.listed u hu
      exact ⟨by simpa [hut] using h1, h2⟩
    · have hut : u ≠ t := by
        rintro rfl
        simp at hu
      exact h.timer u (by simpa [hut] using hu) hact
    · refine (h.counts u).trans ?_
      show c.successes u = c1.successes u
      by_cases hut : u = t
      · subst hut
        -- the resumed take becomes a returned one
        unfold successes
        rw [if_neg hgone]
        by_cases herr : (c.os.threads u).error = RT_EOK
        · have hret : Mutex.takeResumed c.os u = RT_EOK := if_neg (not_not.mpr herr)
          rw [if_pos ⟨htaking, hnot, herr⟩]
          simp only [c1, hret, count_self]
        · have hret : Mutex.takeResumed c.os u ≠ RT_EOK := by
            rw [Mutex.takeResumed, if_pos herr]
            exact herr
          rw [if_neg fun hr => herr hr.2.2]
          simp only [c1, count_error _ hret]
      · exact (successes_congr (count_of_ne c.taken _ hut)
          (hres u hut)).symm
    · have hut : u ≠ t := by
        rintro rfl
        simp at hu
      exact (hres u hut).trans (h.owner u (by simpa [hut] using hu))
  · rw [if_neg hrun] at hs
    cases hs

/-- A timeout takes a thread off the list; it is not the owner. -/
theorem MutexInv.timeout (h : MutexInv c) (hs : c.timeout t = some c') : MutexInv c' := by
  unfold MutexSystem.timeout at hs
  by_cases hact : c.taking t = true ∧ (c.os.threads t).thread_timer.activated = true
  · rw [if_pos hact] at hs
    obtain ⟨os, hos, rfl⟩ := Option.map_eq_some_iff.mp hs
    have hto := timerExpires_timedOut h.inv hos
    have hin := h.timer t hact.1 hact.2
    have hmem : ∀ u, u ∈ os.suspend_thread c.mutex.suspend_thread ↔ u ∈ c.suspended ∧ u ≠ t := by
      intro u
      rw [hto.suspend, List.mem_filter]
      simp [suspended]
    let c1 : MutexSystem := { c with os := os }
    have hres : ∀ u, c1.ResumedOk u ↔ c.ResumedOk u := by
      intro u
      by_cases hut : u = t
      · subst hut
        have herr : (os.threads u).error ≠ RT_EOK := by
          rw [hto.error]
          decide
        exact iff_of_false (fun hr => herr hr.2.2) fun hr => hr.2.1 hin
      · exact resumedOk_congr rfl ((hmem u).trans (and_iff_left hut)) fun _ =>
          (hto.other u hut).error
    have hsucc : ∀ u, c1.successes u = c.successes u := fun u => successes_congr rfl (hres u)
    refine ⟨hto.inv, fun u hu => ?_, fun u hu hact' => ?_, h.fields, fun hn => ?_,
      fun u => (h.counts u).trans (hsucc u).symm, fun u hu => (hres u).trans (h.owner u hu)⟩
    · obtain ⟨hu, hut⟩ := (hmem u).mp hu
      obtain ⟨h1, h2⟩ := h.listed u hu
      exact ⟨h1, (hto.other u hut).error.trans h2⟩
    · have hut : u ≠ t := by
        rintro rfl
        have hact'' : (os.threads u).thread_timer.activated = true := hact'
        rw [hto.timer] at hact''
        cases hact''
      exact (hmem u).mpr ⟨h.timer u hu ((hto.other u hut).timer hact'), hut⟩
    · rw [h.free hn] at hin
      cases hin
  · rw [if_neg hact] at hs
    cases hs

/-! ### Releasing -/

/-- The owner gives up one of several holds. -/
theorem MutexInv.lessHold (h : MutexInv c) (ho : c.mutex.owner = some t) (hidle : c.taking t = false)
    (hlast : 1 < c.mutex.hold) :
    MutexInv { c with
      mutex := { c.mutex with hold := c.mutex.hold - 1 }
      released := count c.released t RT_EOK } := by
  let c1 : MutexSystem :=
    { c with
      mutex := { c.mutex with hold := c.mutex.hold - 1 }
      released := count c.released t RT_EOK }
  have hheld := h.held (by simp [ho])
  refine ⟨h.inv, h.listed, h.timer, ?_, fun hn => ?_, fun u => ?_, h.owner⟩
  · simp only [Mutex.FieldsOk, ho]
    exact ⟨hheld.1, by omega, by omega, hheld.2.2.2⟩
  · have hn' : c.mutex.owner = none := hn
    rw [ho] at hn'
    cases hn'
  · have hcount := h.counts u
    show c1.holds u + c1.released u = c.successes u
    by_cases hut : u = t
    · subst hut
      have h1 : c1.holds u = c.mutex.hold - 1 := if_pos ho
      have h2 : c1.released u = c.released u + 1 := count_self c.released
      rw [holds, if_pos ho] at hcount
      omega
    · have hne : c.mutex.owner ≠ some u := by
        rw [ho]
        exact fun heq => hut (Option.some.inj heq).symm
      have h1 : c1.holds u = 0 := if_neg hne
      have h2 : c1.released u = c.released u := count_of_ne c.released RT_EOK hut
      rw [holds, if_neg hne] at hcount
      omega

/-- The owner gives up its last hold and nobody waits. -/
theorem MutexInv.freed (h : MutexInv c) (ho : c.mutex.owner = some t) (hidle : c.taking t = false)
    (hlast : c.mutex.hold = 1) (hempty : c.suspended = []) :
    MutexInv { c with
      mutex := { c.mutex with value := 1, hold := 0, owner := none, original_priority := 0xff }
      released := count c.released t RT_EOK } := by
  let c1 : MutexSystem :=
    { c with
      mutex := { c.mutex with value := 1, hold := 0, owner := none, original_priority := 0xff }
      released := count c.released t RT_EOK }
  refine ⟨h.inv, h.listed, h.timer, ⟨rfl, rfl⟩, fun _ => hempty, fun u => ?_, fun u hu => ?_⟩
  · have hcount := h.counts u
    show c1.holds u + c1.released u = c.successes u
    have h1 : c1.holds u = 0 := if_neg (by simp [c1])
    by_cases hut : u = t
    · subst hut
      have h2 : c1.released u = c.released u + 1 := count_self c.released
      rw [holds, if_pos ho] at hcount
      omega
    · have hne : c.mutex.owner ≠ some u := by
        rw [ho]
        exact fun heq => hut (Option.some.inj heq).symm
      have h2 : c1.released u = c.released u := count_of_ne c.released RT_EOK hut
      rw [holds, if_neg hne] at hcount
      omega
  · refine (h.owner u hu).trans (iff_of_false ?_ (by simp))
    rw [ho]
    rintro heq
    obtain rfl := Option.some.inj heq
    have hu' : c.taking t = true := hu
    rw [hidle] at hu'
    cases hu'

/-- The threads of the mutex after its first waiting thread is woken. -/
theorem MutexInv.woken_resumed {os : Rtos} {mutex : Mutex} {next : Tid} {rest : List Tid}
    (h : MutexInv c) (released : Tid → Nat) (hcons : c.suspended = next :: rest)
    (hw : Woken c.os os c.mutex.suspend_thread next)
    (hlist : mutex.suspend_thread = c.mutex.suspend_thread) :
    let c1 : MutexSystem := { c with os := os, mutex := mutex, released := released }
    c1.suspended = rest ∧ ∀ u, c1.ResumedOk u ↔ c.ResumedOk u ∨ u = next := by
  have htail : os.suspend_thread mutex.suspend_thread = rest := by
    rw [hlist, hw.suspend, if_pos rfl, show c.os.suspend_thread _ = _ from hcons, List.tail_cons]
  have hmem : ∀ u, u ∈ c.suspended ↔ u = next ∨ u ∈ rest := by
    intro u
    rw [hcons, List.mem_cons]
  have hnot : next ∉ rest := by
    have hnodup := h.inv.suspend_nodup c.mutex.suspend_thread
    rw [show c.os.suspend_thread _ = _ from hcons] at hnodup
    exact (List.nodup_cons.mp hnodup).1
  refine ⟨htail, fun u => ?_⟩
  unfold ResumedOk
  rw [suspended, htail, hmem]
  by_cases hut : u = next
  · subst hut
    obtain ⟨h1, h2⟩ := h.listed u ((hmem u).mpr (Or.inl rfl))
    exact iff_of_true ⟨h1, hnot, (hw.kept u).error.trans h2⟩ (Or.inr rfl)
  · rw [(hw.kept u).error]
    simp [hut]

/-- The owner gives up its last hold, and the first waiting thread gets the mutex. -/
theorem MutexInv.handsOver {os : Rtos} {mutex : Mutex} {next : Tid} {rest : List Tid}
    (h : MutexInv c) (ho : c.mutex.owner = some t) (hidle : c.taking t = false)
    (hlast : c.mutex.hold = 1) (hcons : c.suspended = next :: rest)
    (hw : Woken c.os os c.mutex.suspend_thread next)
    (hlist : mutex.suspend_thread = c.mutex.suspend_thread) (howner : mutex.owner = some next)
    (hhold : mutex.hold = 1) (hfields : mutex.FieldsOk) :
    MutexInv { c with os := os, mutex := mutex, released := count c.released t RT_EOK } := by
  let c1 : MutexSystem :=
    { c with os := os, mutex := mutex, released := count c.released t RT_EOK }
  obtain ⟨htail, hres⟩ := h.woken_resumed (count c.released t RT_EOK) hcons hw hlist
  have hmem : ∀ u, u ∈ c.suspended ↔ u = next ∨ u ∈ rest := by
    intro u
    rw [hcons, List.mem_cons]
  obtain ⟨htaking, herr⟩ := h.listed next ((hmem next).mpr (Or.inl rfl))
  have hnext : next ≠ t := by
    rintro rfl
    rw [hidle] at htaking
    cases htaking
  have hbefore : ¬c.ResumedOk next := fun hr => hr.2.1 ((hmem next).mpr (Or.inl rfl))
  refine ⟨hw.inv, fun u hu => ?_, fun u hu hact => ?_, hfields, fun hn => ?_, fun u => ?_,
    fun u hu => ?_⟩
  · obtain ⟨h1, h2⟩ := h.listed u ((hmem u).mpr (Or.inr (htail ▸ hu)))
    exact ⟨h1, (hw.kept u).error.trans h2⟩
  · show u ∈ c1.suspended
    rw [htail]
    have hut : u ≠ next := by
      rintro rfl
      have hact' : (os.threads u).thread_timer.activated = true := hact
      rw [hw.timer] at hact'
      cases hact'
    exact ((hmem u).mp (h.timer u hu ((hw.kept u).timer hact))).resolve_left hut
  · have hn' : mutex.owner = none := hn
    rw [howner] at hn'
    cases hn'
  · have hcount := h.counts u
    show c1.holds u + c1.released u = c1.successes u
    by_cases hun : u = next
    · -- the hold of the new owner is its resumed take
      subst hun
      have h1 : c1.holds u = 1 := (if_pos howner).trans hhold
      have h2 : c1.released u = c.released u := count_of_ne c.released RT_EOK hnext
      have hne : c.mutex.owner ≠ some u := by
        rw [ho]
        exact fun heq => hnext (Option.some.inj heq).symm
      rw [holds, if_neg hne, successes, if_neg hbefore] at hcount
      have h3 : c1.successes u = c.taken u + 1 := by
        rw [successes, if_pos ((hres u).mpr (Or.inr rfl))]
      omega
    · have h3 : c1.successes u = c.successes u :=
        successes_congr rfl ((hres u).trans (or_iff_left hun))
      have h1 : c1.holds u = 0 := by
        refine if_neg ?_
        show mutex.owner ≠ some u
        rw [howner]
        exact fun heq => hun (Option.some.inj heq).symm
      by_cases hut : u = t
      · subst hut
        have h2 : c1.released u = c.released u + 1 := count_self c.released
        rw [holds, if_pos ho] at hcount
        omega
      · have hne : c.mutex.owner ≠ some u := by
          rw [ho]
          exact fun heq => hut (Option.some.inj heq).symm
        have h2 : c1.released u = c.released u := count_of_ne c.released RT_EOK hut
        rw [holds, if_neg hne] at hcount
        omega
  · rw [hres u, h.owner u hu]
    show _ ↔ mutex.owner = some u
    rw [howner, ho]
    have hut : u ≠ t := by
      rintro rfl
      have hu' : c.taking u = true := hu
      rw [hidle] at hu'
      cases hu'
    simp only [Option.some.injEq]
    exact ⟨fun h => h.elim (fun heq => absurd heq.symm hut) Eq.symm, fun h => Or.inr h.symm⟩

/-- What the release of a mutex does. -/
inductive Releases (c : MutexSystem) (t : Tid) : MutexSystem → Prop where
  | notOwner (ho : c.mutex.owner ≠ some t) : Releases c t
      { c with os := c.os.setThread t fun th => { th with error := -RT_ERROR } }
  | lessHold (ho : c.mutex.owner = some t) (hold : 1 < c.mutex.hold) : Releases c t
      { c with
        mutex := { c.mutex with hold := c.mutex.hold - 1 }
        released := count c.released t RT_EOK }
  | freed {s : Rtos} (ho : c.mutex.owner = some t) (hold : c.mutex.hold = 1)
      (hs : Reprioritized c.os s) (hempty : c.suspended = []) : Releases c t
      { c with
        os := s
        mutex := { c.mutex with value := 1, hold := 0, owner := none, original_priority := 0xff }
        released := count c.released t RT_EOK }
  | handsOver {s os : Rtos} {mutex : Mutex} {next : Tid} {rest : List Tid}
      (ho : c.mutex.owner = some t) (hold : c.mutex.hold = 1) (hs : Reprioritized c.os s)
      (hcons : c.suspended = next :: rest) (hw : Woken s os c.mutex.suspend_thread next)
      (hlist : mutex.suspend_thread = c.mutex.suspend_thread) (howner : mutex.owner = some next)
      (hhold : mutex.hold = 1) (hfields : mutex.FieldsOk) : Releases c t
      { c with os := os, mutex := mutex, released := count c.released t RT_EOK }

theorem highest_priority_lt (s : Rtos) (list : List Tid) :
    rt_ipc_get_highest_priority s list < 32 := by
  have hle : ∀ (ts : List Tid) (p : Nat),
      ts.foldl (fun priority t => min priority (s.threads t).current_priority) p ≤ p := by
    intro ts
    induction ts with
    | nil => exact fun p => Nat.le_refl p
    | cons t ts ih => exact fun p => (ih _).trans (min_le_left ..)
  exact Nat.lt_of_le_of_lt (hle list _) (by decide)

theorem MutexInv.release_cases (h : MutexInv c) (hs : c.release t = some c') :
    Releases c t c' ∧ c.taking t = false := by
  unfold MutexSystem.release at hs
  by_cases hcall : Runs c.os t ∧ c.taking t = false
  · rw [if_pos hcall] at hs
    obtain ⟨⟨os, mutex, err⟩, hrel, hs⟩ := Option.bind_eq_some_iff.mp hs
    obtain rfl := Option.some.inj hs
    refine ⟨?_, hcall.2⟩
    unfold Mutex.rt_mutex_release at hrel
    rw [hcall.1.1] at hrel
    simp only [Option.bind_eq_bind, Option.bind_some] at hrel
    by_cases ho : c.mutex.owner = some t
    · rw [if_neg (not_not.mpr ho)] at hrel
      have hheld := h.held (by simp [ho])
      have hmax : c.mutex.hold ≤ 255 := hheld.2.2.1
      have hhold : (c.mutex.hold + 255) % 256 = c.mutex.hold - 1 := by omega
      rw [hhold] at hrel
      by_cases hlast : c.mutex.hold = 1
      · rw [if_pos (by omega)] at hrel
        obtain ⟨s1, hctl, hrel⟩ := Option.bind_eq_some_iff.mp hrel
        have hctl := changePriorityIf_reprioritized h.inv hheld.2.2.2 hctl
        unfold Mutex.releaseLast at hrel
        have hlist : s1.suspend_thread c.mutex.suspend_thread = c.suspended := hctl.suspend _
        simp only [hlist] at hrel
        cases hcons : c.suspended with
        | nil =>
          simp only [hcons] at hrel
          rw [if_pos (by simp [hheld.1, RT_MUTEX_VALUE_MAX])] at hrel
          cases hrel
          simp only [hheld.1, hlast]
          exact .freed ho hlast hctl hcons
        | cons next rest =>
          simp only [hcons] at hrel
          obtain ⟨s2, hctl2, hrel⟩ := Option.bind_eq_some_iff.mp hrel
          have hctl2 := changePriorityIf_reprioritized hctl.inv (highest_priority_lt _ _) hctl2
          have hcons2 : s2.suspend_thread c.mutex.suspend_thread = next :: rest := by
            rw [hctl2.suspend, hlist, hcons]
          obtain ⟨hres, hw⟩ := rt_ipc_list_resume_woken hctl2.inv hcons2
          rw [if_pos (by simp [hlast, RT_MUTEX_HOLD_MAX]), hres] at hrel
          cases hrel
          refine .handsOver ho hlast (hctl.trans hctl2) hcons hw rfl rfl (by simp [hlast]) ?_
          have hprio := (hctl.inv.thread next (by simp)).priority_lt
          simp only [Mutex.FieldsOk]
          exact ⟨hheld.1, by omega, by simp [hlast, RT_MUTEX_HOLD_MAX], hprio⟩
      · rw [if_neg (by omega)] at hrel
        cases hrel
        exact .lessHold ho (by omega)
    · rw [if_pos ho] at hrel
      cases hrel
      rw [count_error _ (by decide)]
      exact .notOwner ho
  · rw [if_neg hcall] at hs
    cases hs

theorem MutexInv.release (h : MutexInv c) (hs : c.release t = some c') : MutexInv c' := by
  obtain ⟨hrel, hidle⟩ := h.release_cases hs
  cases hrel with
  | notOwner ho => exact h.elsewhere (setError_elsewhere h.inv (by simp [hidle]))
  | lessHold ho hold => exact h.lessHold ho hidle hold
  | freed ho hold hctl hempty =>
    have h1 := h.elsewhere hctl.elsewhere
    exact h1.freed ho hidle hold ((hctl.suspend _).trans hempty)
  | handsOver ho hold hctl hcons hw hlist howner hhold hfields =>
    have h1 := h.elsewhere hctl.elsewhere
    exact h1.handsOver ho hidle hold ((hctl.suspend _).trans hcons) hw hlist howner hhold hfields

theorem MutexInv.step {l : MutexStep} (h : MutexInv c) (hs : c.step l = some c') : MutexInv c' := by
  cases l with
  | take t time => exact h.take hs
  | takeResumed t => exact h.takeResumed hs
  | release t => exact h.release hs
  | timeout t => exact h.timeout hs
  | schedule =>
    obtain ⟨os, hos, rfl⟩ := Option.map_eq_some_iff.mp hs
    exact h.elsewhere (rt_schedule_elsewhere h.inv hos)
  | other os => cases hs

theorem reachable_mutexInv (hr : mutexMachine.Reachable c) : MutexInv c := by
  apply hr.invariant
  · exact fun c h => h.mutexInv
  · rintro c l c' - h (hs | ⟨os, -, rfl, he⟩)
    · exact h.step hs
    · exact h.elsewhere he

/-- The waiting thread that a release gives the mutex to. -/
theorem MutexInv.release_handOver {next : Tid} {rest : List Tid} (h : MutexInv c)
    (hs : c.release t = some c') (ho : c.mutex.owner = some t) (hlast : c.mutex.hold = 1)
    (hcons : c.suspended = next :: rest) : c'.mutex.owner = some next ∧ c'.suspended = rest ∧
      ∀ u, c'.ResumedOk u ↔ u = next := by
  obtain ⟨hrel, hidle⟩ := h.release_cases hs
  cases hrel with
  | notOwner hne => exact absurd ho hne
  | lessHold _ hold => omega
  | freed _ _ _ hempty =>
    rw [hempty] at hcons
    cases hcons
  | handsOver _ _ hctl hcons' hw hlist howner hhold hfields =>
    obtain ⟨rfl, rfl⟩ := List.cons.inj (hcons'.symm.trans hcons)
    have h1 := h.elsewhere hctl.elsewhere
    obtain ⟨htail, hres⟩ := h1.woken_resumed (count c.released t RT_EOK)
      ((hctl.suspend _).trans hcons) hw hlist
    refine ⟨howner, htail, fun u => (hres u).trans (or_iff_right ?_)⟩
    -- nobody else is resumed, because the owner is not waiting
    intro hr
    have hu := (h1.owner u hr.1).mp hr
    have hu' : c.mutex.owner = some u := hu
    obtain rfl := Option.some.inj (ho.symm.trans hu')
    have htaking : c.taking t = true := hr.1
    rw [hidle] at htaking
    cases htaking

end MutexSystem

open MutexSystem

theorem mutex_ownership {c : MutexSystem} (hr : mutexMachine.Reachable c) : MutexContract c := by
  have h := reachable_mutexInv hr
  have hothers : ∀ t, c.mutex.owner ≠ some t → c.released t = c.successes t := by
    intro t ht
    have hcount := h.counts t
    rwa [holds, if_neg ht, Nat.zero_add] at hcount
  refine ⟨?_, fun hw => ?_, fun t ht => ?_, hothers, fun t u ht hu => ?_, fun t ht => ?_,
    fun t ht hres => ?_, fun t c' hs ho hlast next rest hcons => ?_, fun t c' hs herr => ?_⟩
  · constructor
    · intro hv
      have hav := h.available (by omega)
      exact ⟨hav.1, hav.2.2⟩
    · rintro ⟨ho, -⟩
      have hf := h.fields
      rw [Mutex.FieldsOk, ho] at hf
      exact hf.1
  · have ho : c.mutex.owner ≠ none := fun hn => hw (h.free hn)
    exact ⟨ho, (h.held ho).1⟩
  · have hcount := h.counts t
    rwa [holds, if_pos ht] at hcount
  · -- a thread with more takes than releases is the owner
    have howner : ∀ v, c.released v < c.taken v → c.mutex.owner = some v := by
      intro v hv
      by_contra hne
      have hle : c.taken v ≤ c.successes v := Nat.le_add_right ..
      have heq := hothers v hne
      omega
    exact Option.some.inj ((howner t ht).symm.trans (howner u hu))
  · exact (h.owner t ht.1).mp ht
  · exact fun ho => hres ((h.owner t ht).mpr ho)
  · exact h.release_handOver hs ho hlast hcons
  · unfold MutexSystem.takeResumed at hs
    by_cases hrun : Runs c.os t ∧ c.taking t = true
    · rw [if_pos hrun] at hs
      obtain rfl := Option.some.inj hs
      intro ho
      have hok := ((h.owner t hrun.2).mpr ho).2.2
      rw [Mutex.takeResumed, if_neg (not_not.mpr hok)] at herr
      cases herr
    · rw [if_neg hrun] at hs
      cases hs

/-- A free mutex, used by nobody. -/
def freeMutex (os : Rtos) : MutexSystem :=
  { os := os, mutex := ⟨1, 0xff, 0, none, 0, .prio⟩, taking := fun _ => false, taken := fun _ => 0
    released := fun _ => 0 }

/-- Thread 1 takes the mutex twice, releases it twice, and takes it again. -/
def nestedTakes : List MutexStep :=
  [.take 1 (-1), .take 1 0, .release 1, .release 1, .take 1 10]

theorem mutex_ownership_nested : ∃ os, startedThreads = some os ∧
    ∃ c, Machine.runs MutexSystem.step (freeMutex os) nestedTakes = some c ∧
      c.mutex.owner = some 1 ∧ MutexContract c := by
  have hrun : ∃ os, startedThreads = some os ∧
      ∃ c, Machine.runs MutexSystem.step (freeMutex os) nestedTakes = some c ∧
        c.mutex.owner = some 1 ∧ os.suspend_thread 0 = [] := by
    decide +kernel
  obtain ⟨os, hos, c, hc, howner, hlist⟩ := hrun
  have hfresh : (freeMutex os).Fresh :=
    ⟨startedThreads_inv hos, rfl, rfl, rfl, hlist, fun _ => rfl, fun _ => rfl, fun _ => rfl⟩
  refine ⟨os, hos, c, hc, howner, mutex_ownership ?_⟩
  exact (Machine.Reachable.start hfresh).runs (fun _ _ _ hs => Or.inl hs) hc

end Ab32Vg1.Kernel
