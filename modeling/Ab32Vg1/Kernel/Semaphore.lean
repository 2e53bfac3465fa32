import Ab32Vg1.Kernel.SchedulerRun
import Ab32Vg1.Kernel.Waiting

/-! The semaphore of `ipc.c`: no token is lost, and no thread waits while there is one. -/

namespace Ab32Vg1.Kernel

open ProofKit Rtos

def RT_SEM_VALUE_MAX : Nat := 65535

/-- `struct rt_semaphore`; `suspend_thread` names its list of waiting threads. -/
structure Semaphore where
  value : Nat
  suspend_thread : Nat
  flag : IpcFlag
  deriving DecidableEq, Repr

namespace Semaphore

/-- `rt_sem_take` up to its call of `rt_schedule`. -/
def rt_sem_take (sem : Semaphore) (s : Rtos) (time : Int) : Option (Rtos × Semaphore × Outcome) :=
  if 0 < sem.value then
    some (s, { sem with value := sem.value - 1 }, .returned RT_EOK)
  else if time = 0 then
    some (s, sem, .returned (-RT_ETIMEOUT))
  else do
    let thread ← s.rt_current_thread
    let s ← s.waitOn sem.suspend_thread thread sem.flag time
    return (s, sem, .suspended)

/-- What `rt_sem_take` returns when its thread goes on after `rt_schedule`. -/
def takeResumed (s : Rtos) (thread : Tid) : Int :=
  if (s.threads thread).error ≠ RT_EOK then (s.threads thread).error else RT_EOK

/-- `rt_sem_release` up to its call of `rt_schedule`. -/
def rt_sem_release (sem : Semaphore) (s : Rtos) : Option (Rtos × Semaphore × Int) :=
  if s.suspend_thread sem.suspend_thread ≠ [] then do
    let s ← s.rt_ipc_list_resume sem.suspend_thread
    return (s, sem, RT_EOK)
  else if sem.value < RT_SEM_VALUE_MAX then
    some (s, { sem with value := sem.value + 1 }, RT_EOK)
  else some (s, sem, -RT_EFULL)

end Semaphore

/-! ### The machine -/

/-- A semaphore and the threads that use it: `taking` holds of a thread that waits in `rt_sem_take`
or has yet to return from it.  The counters of the releases and takes that returned `RT_EOK` are
not in the code. -/
structure SemSystem where
  os : Rtos
  sem : Semaphore
  taking : Tid → Bool
  released : Nat
  taken : Nat

inductive SemStep where
  | take (caller : Option Tid) (time : Int)
  | takeResumed (t : Tid)
  | release
  | timeout (t : Tid)
  | schedule
  | other (os : Rtos)

namespace SemSystem

/-- The threads in the list of the semaphore. -/
def suspended (c : SemSystem) : List Tid := c.os.suspend_thread c.sem.suspend_thread

def take (c : SemSystem) (caller : Option Tid) (time : Int) : Option SemSystem :=
  if MayCall c.os c.taking time caller then do
    let (os, sem, outcome) ← c.sem.rt_sem_take c.os time
    match outcome, caller with
    | .returned err, _ =>
      return { c with os := os, sem := sem, taken := if err = RT_EOK then c.taken + 1 else c.taken }
    | .suspended, some t =>
      return { c with os := os, sem := sem, taking := Function.update c.taking t true }
    | .suspended, none => none
  else none

def takeResumed (c : SemSystem) (t : Tid) : Option SemSystem :=
  if Runs c.os t ∧ c.taking t = true then
    some { c with
      taking := Function.update c.taking t false
      taken := if Semaphore.takeResumed c.os t = RT_EOK then c.taken + 1 else c.taken }
  else none

def release (c : SemSystem) : Option SemSystem := do
  let (os, sem, err) ← c.sem.rt_sem_release c.os
  return { c with
    os := os, sem := sem, released := if err = RT_EOK then c.released + 1 else c.released }

/-- The timer of a thread that uses the semaphore expires. -/
def timeout (c : SemSystem) (t : Tid) : Option SemSystem :=
  if c.taking t = true ∧ (c.os.threads t).thread_timer.activated = true then
    (c.os.timerExpires t).map fun os => { c with os := os }
  else none

def step (c : SemSystem) : SemStep → Option SemSystem
  | .take caller time => c.take caller time
  | .takeResumed t => c.takeResumed t
  | .release => c.release
  | .timeout t => c.timeout t
  | .schedule => c.os.rt_schedule.map fun os => { c with os := os }
  | .other _ => none

/-- What the step returns to a caller of `rt_sem_take`. -/
def takeReturns (c : SemSystem) : SemStep → Option Int
  | .take _ time =>
    match c.sem.rt_sem_take c.os time with
    | some (_, _, .returned err) => some err
    | _ => none
  | .takeResumed t => some (Semaphore.takeResumed c.os t)
  | _ => none

/-- A thread that has been resumed to return `RT_EOK`, and has not returned. -/
def ResumedOk (c : SemSystem) (t : Tid) : Prop :=
  c.taking t = true ∧ t ∉ c.suspended ∧ (c.os.threads t).error = RT_EOK

/-- A semaphore that was initialised with `initial`, and that nobody has used. -/
structure Fresh (initial : Nat) (c : SemSystem) : Prop where
  inv : Inv c.os
  value : c.sem.value = initial
  suspended : c.suspended = []
  taking : ∀ t, c.taking t = false
  released : c.released = 0
  taken : c.taken = 0

end SemSystem

def semMachine (initial : Nat) : Machine SemSystem SemStep where
  start := SemSystem.Fresh initial
  step c l c' := c.step l = some c' ∨ ∃ os, l = .other os ∧ c' = { c with os := os } ∧
    Elsewhere (· = c.sem.suspend_thread) (fun t => c.taking t = true) c.os os

/-- Every token is in the semaphore, taken, or on its way to a resumed thread; no thread waits while
there is a token; a take that times out takes none. -/
structure SemContract (initial : Nat) (c : SemSystem) : Prop where
  conserved : ∃ resumed : List Tid, resumed.Nodup ∧ (∀ t, t ∈ resumed ↔ c.ResumedOk t) ∧
    initial + c.released = c.sem.value + c.taken + resumed.length
  suspended : 0 < c.sem.value → c.suspended = []
  timeout : ∀ l c', (semMachine initial).step c l c' → c.takeReturns l = some (-RT_ETIMEOUT) →
    c'.sem = c.sem ∧ c'.released = c.released ∧ c'.taken = c.taken ∧
      ∀ t, c'.ResumedOk t ↔ c.ResumedOk t

/-! ### The invariant -/

namespace SemSystem

structure SemInv (initial : Nat) (c : SemSystem) : Prop where
  inv : Inv c.os
  listed : ∀ t ∈ c.suspended, c.taking t = true ∧ (c.os.threads t).error = RT_EOK
  timer : ∀ t, c.taking t = true → (c.os.threads t).thread_timer.activated = true →
    t ∈ c.suspended
  empty : 0 < c.sem.value → c.suspended = []
  conserved : ∃ resumed : List Tid, resumed.Nodup ∧ (∀ t, t ∈ resumed ↔ c.ResumedOk t) ∧
    initial + c.released = c.sem.value + c.taken + resumed.length

variable {initial : Nat} {c c' : SemSystem}

theorem Fresh.semInv (h : Fresh initial c) : SemInv initial c where
  inv := h.inv
  listed t ht := by simp [h.suspended] at ht
  timer t ht := by simp [h.taking] at ht
  empty _ := h.suspended
  conserved := ⟨[], List.nodup_nil, fun t => by simp [ResumedOk, h.taking],
    by simp [h.value, h.released, h.taken]⟩

/-- Steps that leave the semaphore and its threads alone. -/
theorem SemInv.elsewhere {os : Rtos} (h : SemInv initial c)
    (he : Elsewhere (· = c.sem.suspend_thread) (fun t => c.taking t = true) c.os os) :
    SemInv initial { c with os := os } := by
  have hlist : os.suspend_thread c.sem.suspend_thread = c.suspended := he.suspend _ rfl
  refine ⟨he.inv, fun t ht => ?_, fun t ht hact => ?_, fun hv => hlist.trans (h.empty hv), ?_⟩
  · obtain ⟨h1, h2⟩ := h.listed t (hlist ▸ ht)
    exact ⟨h1, (he.kept t h1).error.trans h2⟩
  · show t ∈ os.suspend_thread c.sem.suspend_thread
    rw [hlist]
    exact h.timer t ht ((he.kept t ht).timer hact)
  · obtain ⟨resumed, hnd, hmem, hsum⟩ := h.conserved
    refine ⟨resumed, hnd, fun t => (hmem t).trans ?_, hsum⟩
    unfold ResumedOk
    refine and_congr_right fun ht => ?_
    rw [(he.kept t ht).error, suspended, suspended, he.suspend _ rfl]

/-- The running thread begins to wait. -/
theorem SemInv.begins {os : Rtos} {t : Tid} (h : SemInv initial c) (hv : c.sem.value = 0)
    (hidle : c.taking t = false) (hw : Waits c.os os c.sem.suspend_thread t) :
    SemInv initial { c with os := os, taking := Function.update c.taking t true } := by
  have hmem : ∀ u, u ∈ os.suspend_thread c.sem.suspend_thread ↔ u ∈ c.suspended ∨ u = t := by
    intro u
    rw [hw.mem]
    simp [suspended]
  refine ⟨hw.inv, fun u hu => ?_, fun u hu hact => ?_, fun hpos => absurd hpos (by simp [hv]), ?_⟩
  · by_cases hut : u = t
    · subst hut
      exact ⟨by simp, hw.error⟩
    · obtain ⟨h1, h2⟩ := h.listed u (((hmem u).mp hu).resolve_right hut)
      exact ⟨by simpa [hut] using h1, by rw [hw.other u hut]; exact h2⟩
  · refine (hmem u).mpr ?_
    by_cases hut : u = t
    · exact Or.inr hut
    · have hu' : c.taking u = true := by simpa [hut] using hu
      have hact' : (os.threads u).thread_timer.activated = true := hact
      rw [hw.other u hut] at hact'
      exact Or.inl (h.timer u hu' hact')
  · obtain ⟨resumed, hnd, hres, hsum⟩ := h.conserved
    refine ⟨resumed, hnd, fun u => (hres u).trans ?_, hsum⟩
    unfold ResumedOk
    by_cases hut : u = t
    · -- neither before nor after
      subst hut
      have hin : u ∈ os.suspend_thread c.sem.suspend_thread := (hmem u).mpr (Or.inr rfl)
      simp [hidle, suspended, hin]
    · have hin : u ∈ os.suspend_thread c.sem.suspend_thread ↔ u ∈ c.suspended := by
        rw [hmem]
        simp [hut]
      simp only [suspended] at hin ⊢
      rw [hin, hw.other u hut, Function.update_of_ne hut]

theorem SemInv.take {caller : Option Tid} {time : Int} (h : SemInv initial c)
    (hs : c.take caller time = some c') : SemInv initial c' := by
  unfold SemSystem.take at hs
  by_cases hcall : MayCall c.os c.taking time caller
  · rw [if_pos hcall] at hs
    obtain ⟨⟨os, sem, outcome⟩, htake, hs⟩ := Option.bind_eq_some_iff.mp hs
    unfold Semaphore.rt_sem_take at htake
    by_cases hv : 0 < c.sem.value
    · -- a token is there
      rw [if_pos hv] at htake
      cases htake
      obtain rfl := Option.some.inj hs
      obtain ⟨resumed, hnd, hres, hsum⟩ := h.conserved
      refine ⟨h.inv, h.listed, h.timer, fun _ => h.empty hv, resumed, hnd, hres, ?_⟩
      simp only [if_true]
      omega
    · rw [if_neg hv] at htake
      by_cases htime : time = 0
      · rw [if_pos htime] at htake
        cases htake
        obtain rfl := Option.some.inj hs
        obtain ⟨resumed, hnd, hres, hsum⟩ := h.conserved
        refine ⟨h.inv, h.listed, h.timer, h.empty, resumed, hnd, hres, ?_⟩
        rw [if_neg (by decide)]
        exact hsum
      · rw [if_neg htime] at htake
        obtain ⟨t, hcur, htake⟩ := Option.bind_eq_some_iff.mp htake
        obtain ⟨os', hwait, htake⟩ := Option.bind_eq_some_iff.mp htake
        cases htake
        cases caller with
        | none => exact absurd hcall htime
        | some u =>
          obtain ⟨hrun, hidle⟩ := hcall
          obtain rfl := Option.some.inj (hrun.1.symm.trans hcur)
          obtain rfl := Option.some.inj hs
          exact h.begins (by omega) hidle (waitOn_waits h.inv hrun.2 hwait)
  · rw [if_neg hcall] at hs
    cases hs

/-- A thread returns from `rt_sem_take`. -/
theorem SemInv.takeResumed {t : Tid} (h : SemInv initial c) (hs : c.takeResumed t = some c') :
    SemInv initial c' := by
  unfold SemSystem.takeResumed at hs
  by_cases hrun : Runs c.os t ∧ c.taking t = true
  · rw [if_pos hrun] at hs
    obtain rfl := Option.some.inj hs
    obtain ⟨hrun, htaking⟩ := hrun
    have hnot : t ∉ c.suspended := hrun.not_waiting h.inv _
    refine ⟨h.inv, fun u hu => ?_, fun u hu hact => ?_, h.empty, ?_⟩
    · have hut : u ≠ t := fun heq => hnot (heq ▸ hu)
      obtain ⟨h1, h2⟩ := h.listed u hu
      exact ⟨by simpa [hut] using h1, h2⟩
    · have hut : u ≠ t := by
        rintro rfl
        simp at hu
      exact h.timer u (by simpa [hut] using hu) hact
    · obtain ⟨resumed, hnd, hres, hsum⟩ := h.conserved
      have hres' : ∀ u, u ∈ resumed.erase t ↔ ResumedOk { c with
          taking := Function.update c.taking t false
          taken := if Semaphore.takeResumed c.os t = RT_EOK then c.taken + 1 else c.taken } u := by
        intro u
        rw [hnd.mem_erase_iff, hres]
        unfold ResumedOk
        by_cases hut : u = t
        · simp [hut]
        · simp [hut, suspended]
      refine ⟨resumed.erase t, hnd.erase t, hres', ?_⟩
      dsimp only
      by_cases herr : (c.os.threads t).error = RT_EOK
      · have hmem : t ∈ resumed := (hres t).mpr ⟨htaking, hnot, herr⟩
        have hpos := List.length_pos_of_mem hmem
        rw [List.length_erase_of_mem hmem, Semaphore.takeResumed, if_neg (not_not.mpr herr),
          if_pos rfl]
        omega
      · have hmem : t ∉ resumed := fun ht => herr ((hres t).mp ht).2.2
        rw [List.erase_of_not_mem hmem, Semaphore.takeResumed, if_pos herr, if_neg herr]
        exact hsum
  · rw [if_neg hrun] at hs
    cases hs

/-- A token goes to the first waiting thread, or to the semaphore. -/
theorem SemInv.release (h : SemInv initial c) (hs : c.release = some c') : SemInv initial c' := by
  obtain ⟨⟨os, sem, err⟩, hrel, hs⟩ := Option.bind_eq_some_iff.mp hs
  obtain rfl := Option.some.inj hs
  unfold Semaphore.rt_sem_release at hrel
  obtain ⟨resumed, hnd, hres, hsum⟩ := h.conserved
  by_cases hlist : c.os.suspend_thread c.sem.suspend_thread = []
  · rw [if_neg (not_not.mpr hlist)] at hrel
    by_cases hv : c.sem.value < RT_SEM_VALUE_MAX
    · rw [if_pos hv] at hrel
      cases hrel
      refine ⟨h.inv, h.listed, h.timer, fun _ => hlist, resumed, hnd, hres, ?_⟩
      simp only [if_true]
      omega
    · rw [if_neg hv] at hrel
      cases hrel
      refine ⟨h.inv, h.listed, h.timer, h.empty, resumed, hnd, hres, ?_⟩
      rw [if_neg (by decide)]
      exact hsum
  · rw [if_pos hlist] at hrel
    obtain ⟨t, rest, hcons⟩ := List.exists_cons_of_ne_nil hlist
    obtain ⟨hres1, hw⟩ := rt_ipc_list_resume_woken h.inv hcons
    rw [hres1] at hrel
    cases hrel
    have htail : (wake c.os t).suspend_thread c.sem.suspend_thread = rest := by
      rw [hw.suspend, if_pos rfl, hcons, List.tail_cons]
    have hmem : ∀ u, u ∈ c.suspended ↔ u = t ∨ u ∈ rest := by
      intro u
      rw [suspended, hcons, List.mem_cons]
    have htrest : t ∉ rest := by
      have hnodup := h.inv.suspend_nodup c.sem.suspend_thread
      rw [hcons] at hnodup
      exact (List.nodup_cons.mp hnodup).1
    obtain ⟨httaking, hterr⟩ := h.listed t ((hmem t).mpr (Or.inl rfl))
    refine ⟨hw.inv, fun u hu => ?_, fun u hu hact => ?_, fun hpos => absurd (h.empty hpos) hlist,
      t :: resumed, List.nodup_cons.mpr ⟨fun ht => ?_, hnd⟩, fun u => ?_, ?_⟩
    · rw [suspended, htail] at hu
      obtain ⟨h1, h2⟩ := h.listed u ((hmem u).mpr (Or.inr hu))
      exact ⟨h1, (hw.kept u).error.trans h2⟩
    · rw [suspended, htail]
      have hut : u ≠ t := by
        rintro rfl
        rw [hw.timer] at hact
        cases hact
      exact ((hmem u).mp (h.timer u hu ((hw.kept u).timer hact))).resolve_left hut
    · exact ((hres t).mp ht).2.1 ((hmem t).mpr (Or.inl rfl))
    · rw [List.mem_cons, hres]
      unfold ResumedOk
      rw [(hw.kept u).error, hmem, suspended, htail]
      by_cases hut : u = t
      · subst hut
        simp [httaking, hterr, htrest]
      · simp [hut]
    · simp only [if_true, List.length_cons]
      omega

/-- A timeout takes a thread off the list and gives it no token. -/
theorem SemInv.timeout {t : Tid} (h : SemInv initial c) (hs : c.timeout t = some c') :
    SemInv initial c' := by
  unfold SemSystem.timeout at hs
  by_cases hact : c.taking t = true ∧ (c.os.threads t).thread_timer.activated = true
  · rw [if_pos hact] at hs
    obtain ⟨os, hos, rfl⟩ := Option.map_eq_some_iff.mp hs
    have hto := timerExpires_timedOut h.inv hos
    have hin := h.timer t hact.1 hact.2
    have hmem : ∀ u, u ∈ os.suspend_thread c.sem.suspend_thread ↔ u ∈ c.suspended ∧ u ≠ t := by
      intro u
      rw [hto.suspend, List.mem_filter]
      simp [suspended]
    refine ⟨hto.inv, fun u hu => ?_, fun u hu hact' => ?_, fun hpos => ?_, ?_⟩
    · obtain ⟨hu, hut⟩ := (hmem u).mp hu
      obtain ⟨h1, h2⟩ := h.listed u hu
      exact ⟨h1, (hto.other u hut).error.trans h2⟩
    · have hut : u ≠ t := by
        rintro rfl
        have hact'' : (os.threads u).thread_timer.activated = true := hact'
        rw [hto.timer] at hact''
        cases hact''
      exact (hmem u).mpr ⟨h.timer u hu ((hto.other u hut).timer hact'), hut⟩
    · rw [h.empty hpos] at hin
      cases hin
    · obtain ⟨resumed, hnd, hres, hsum⟩ := h.conserved
      refine ⟨resumed, hnd, fun u => (hres u).trans ?_, hsum⟩
      unfold ResumedOk
      by_cases hut : u = t
      · subst hut
        have herr : (os.threads u).error ≠ RT_EOK := by
          rw [hto.error]
          decide
        exact iff_of_false (fun hr => hr.2.1 hin) fun hr => herr hr.2.2
      · have hin' : u ∈ os.suspend_thread c.sem.suspend_thread ↔ u ∈ c.suspended := by
          rw [hmem]
          simp [hut]
        simp only [suspended] at hin' ⊢
        rw [hin', (hto.other u hut).error]
  · rw [if_neg hact] at hs
    cases hs

theorem SemInv.step {l : SemStep} (h : SemInv initial c) (hs : c.step l = some c') :
    SemInv initial c' := by
  cases l with
  | take caller time => exact h.take hs
  | takeResumed t => exact h.takeResumed hs
  | release => exact h.release hs
  | timeout t => exact h.timeout hs
  | schedule =>
    obtain ⟨os, hos, rfl⟩ := Option.map_eq_some_iff.mp hs
    exact h.elsewhere (rt_schedule_elsewhere h.inv hos)
  | other os => cases hs

theorem reachable_semInv (hr : (semMachine initial).Reachable c) : SemInv initial c := by
  apply hr.invariant
  · exact fun c h => h.semInv
  · rintro c l c' - h (hs | ⟨os, -, rfl, he⟩)
    · exact h.step hs
    · exact h.elsewhere he

/-- A take that times out leaves every token where it is. -/
theorem take_timeout_keeps {l : SemStep} (hs : c.step l = some c')
    (hret : c.takeReturns l = some (-RT_ETIMEOUT)) :
    c'.sem = c.sem ∧ c'.released = c.released ∧ c'.taken = c.taken ∧
      ∀ t, c'.ResumedOk t ↔ c.ResumedOk t := by
  cases l with
  | take caller time =>
    have hs : c.take caller time = some c' := hs
    unfold SemSystem.take at hs
    split at hs
    · obtain ⟨⟨os, sem, outcome⟩, htake, hs⟩ := Option.bind_eq_some_iff.mp hs
      simp only [takeReturns, htake] at hret
      cases outcome with
      | suspended => cases hret
      | returned err =>
        obtain rfl := Option.some.inj hret
        obtain rfl := Option.some.inj hs
        unfold Semaphore.rt_sem_take at htake
        split at htake
        · cases htake
        · split at htake
          · cases htake
            exact ⟨rfl, rfl, rfl, fun t => Iff.rfl⟩
          · obtain ⟨t, -, htake⟩ := Option.bind_eq_some_iff.mp htake
            obtain ⟨os', -, htake⟩ := Option.bind_eq_some_iff.mp htake
            cases htake
    · cases hs
  | takeResumed t =>
    have hs : c.takeResumed t = some c' := hs
    unfold SemSystem.takeResumed at hs
    split at hs
    · obtain rfl := Option.some.inj hs
      have herr : Semaphore.takeResumed c.os t = -RT_ETIMEOUT := Option.some.inj hret
      have hne : (c.os.threads t).error ≠ RT_EOK := by
        intro heq
        rw [Semaphore.takeResumed, if_neg (not_not.mpr heq)] at herr
        cases herr
      refine ⟨rfl, rfl, by rw [herr]; rfl, fun u => ?_⟩
      unfold ResumedOk
      by_cases hut : u = t
      · subst hut
        simp [hne]
      · simp [hut, suspended]
    · cases hs
  | release => cases hret
  | timeout t => cases hret
  | schedule => cases hret
  | other os => cases hret

end SemSystem

open SemSystem

theorem semaphore_conservation {initial : Nat} {c : SemSystem}
    (hr : (semMachine initial).Reachable c) : SemContract initial c := by
  have h := reachable_semInv hr
  refine ⟨h.conserved, h.empty, ?_⟩
  rintro l c' (hs | ⟨os, rfl, -, -⟩) hret
  · exact take_timeout_keeps hs hret
  · cases hret

/-- An empty semaphore, used by nobody. -/
def emptySemaphore (os : Rtos) : SemSystem :=
  { os := os, sem := ⟨0, 0, .fifo⟩, taking := fun _ => false, released := 0, taken := 0 }

/-- Threads 1 and 2 wait, thread 1 gets a token, thread 2 times out, and thread 1 returns. -/
def takesAndTimeout : List SemStep :=
  [.take (some 1) (-1), .schedule, .take (some 2) 10, .schedule, .release, .timeout 2, .schedule,
    .takeResumed 1]

theorem semaphore_conservation_timeout : ∃ os, startedThreads = some os ∧
    ∃ c, Machine.runs SemSystem.step (emptySemaphore os) takesAndTimeout = some c ∧
      c.taken = 1 ∧ SemContract 0 c := by
  have hrun : ∃ os, startedThreads = some os ∧
      ∃ c, Machine.runs SemSystem.step (emptySemaphore os) takesAndTimeout = some c ∧
        c.taken = 1 ∧ os.suspend_thread 0 = [] := by
    decide +kernel
  obtain ⟨os, hos, c, hc, htaken, hlist⟩ := hrun
  have hfresh : (emptySemaphore os).Fresh 0 :=
    ⟨startedThreads_inv hos, rfl, hlist, fun _ => rfl, rfl, rfl⟩
  refine ⟨os, hos, c, hc, htaken, semaphore_conservation ?_⟩
  exact (Machine.Reachable.start hfresh).runs (fun _ _ _ hs => Or.inl hs) hc

end Ab32Vg1.Kernel
