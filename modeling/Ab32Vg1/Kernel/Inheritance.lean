import Ab32Vg1.Kernel.Mutexes

/-! The priorities of the threads that hold and wait for mutexes: when an owner runs at the priority
of the threads that wait for it, and when it gets its own priority back. -/

set_option linter.unusedSectionVars false

namespace Ab32Vg1.Kernel

open ProofKit Rtos

variable {M : Type} [DecidableEq M]

namespace Mutexes

/-- The owner of each mutex has at least the priority of the threads that wait for it. -/
def Inherits (c : Mutexes M) : Prop :=
  ∀ m, ∀ w ∈ c.waiters m, ∃ o, (c.mutex m).owner = some o ∧
    (c.os.threads o).current_priority ≤ (c.os.threads w).current_priority

/-- A thread that owns no mutex has the priority it was created with. -/
def Restores (c : Mutexes M) : Prop :=
  ∀ t, (c.os.threads t).is_thread = true → (∀ m, (c.mutex m).owner ≠ some t) →
    (c.os.threads t).current_priority = (c.os.threads t).init_priority

/-- A thread begins to wait only if the owner does not wait itself for a mutex whose owner has a
lower priority than the thread.  A thread gives up a mutex only if its saved priority suits the
threads that wait for its other mutexes, and if no waiting thread has a higher priority than the
first one. -/
def PassesOn (c : Mutexes M) : MutexesStep M → Prop
  | .take t m time => time ≠ 0 → ∀ o, (c.mutex m).owner = some o → o ≠ t →
      ∀ m' ∈ c.taking o, o ∈ c.waiters m' → ∀ o' ∈ (c.mutex m').owner,
        (c.os.threads o').current_priority ≤ (c.os.threads t).current_priority
  | .release t m => (c.mutex m).owner = some t → (c.mutex m).hold = 1 →
      (∀ m', m' ≠ m → (c.mutex m').owner = some t → ∀ w ∈ c.waiters m',
        (c.mutex m).original_priority ≤ (c.os.threads w).current_priority) ∧
      ((c.mutex m).flag = .prio → ∀ next ∈ (c.waiters m).head?, ∀ w ∈ c.waiters m,
        (c.os.threads next).current_priority ≤ (c.os.threads w).current_priority)
  | _ => True

/-- A thread that gives up a mutex and goes on owning others has its own priority saved in one of
them. -/
def KeepsSaved (c : Mutexes M) : MutexesStep M → Prop
  | .release t m => (c.mutex m).owner = some t → (c.mutex m).hold = 1 →
      (∃ m', m' ≠ m ∧ (c.mutex m').owner = some t) →
      ∃ m', m' ≠ m ∧ (c.mutex m').owner = some t ∧
        (c.mutex m').original_priority = (c.os.threads t).init_priority
  | _ => True

variable {c c' : Mutexes M} {l : MutexesStep M}

theorem view_inherited : c.view.Inherited ↔ c.Inherits := Iff.rfl

theorem view_restored : c.view.Restored ↔ c.Restores := by
  constructor
  · intro h t hth hno
    exact h t _ (by simp only [view, hth, if_true]) hno
  · intro h t p hp hno
    simp only [view] at hp
    split at hp
    · exact (h t ‹_› hno).trans (Option.some.inj hp)
    · cases hp

theorem Fresh.inherits (h : Fresh c) : c.Inherits := by
  intro m w hw
  rw [h.waiters] at hw
  cases hw

theorem Fresh.restoring (h : Fresh c) : c.view.Restoring := by
  intro t p hp
  constructor
  · intro hno
    exact view_restored.mpr (fun t hth _ => h.created t hth) t p hp hno
  · intro m ho
    have ho' : (c.mutex m).owner = some t := ho
    rw [(h.mutex m).2.1] at ho'
    cases ho'

/-! ### Inheritance -/

theorem highest_priority_le (s : Rtos) {list : List Tid} {t : Tid} (ht : t ∈ list) :
    rt_ipc_get_highest_priority s list ≤ (s.threads t).current_priority := by
  have hle : ∀ (ts : List Tid) (p : Nat),
      ts.foldl (fun priority t => min priority (s.threads t).current_priority) p ≤ p ∧
      ∀ u ∈ ts, ts.foldl (fun priority t => min priority (s.threads t).current_priority) p ≤
        (s.threads u).current_priority := by
    intro ts
    induction ts with
    | nil => exact fun p => ⟨Nat.le_refl p, fun u hu => by cases hu⟩
    | cons v ts ih =>
      intro p
      obtain ⟨h1, h2⟩ := ih (min p (s.threads v).current_priority)
      refine ⟨h1.trans (min_le_left ..), fun u hu => ?_⟩
      rcases List.mem_cons.mp hu with rfl | hu
      · exact h1.trans (min_le_right ..)
      · exact h2 u hu
  exact (hle list _).2 t ht

theorem nextPriority_le {m : M} {next : Tid} (hnext : next ∈ c.waiters m) :
    c.nextPriority m next ≤ (c.os.threads next).current_priority := by
  rw [nextPriority]
  split
  · exact highest_priority_le c.os hnext
  · exact Nat.le_refl _

/-- The waiting threads left behind have no higher priority than the new owner. -/
theorem nextPriority_le_iff {m : M} {next : Tid} {rest : List Tid} (hcons : c.waiters m = next :: rest) :
    (∀ w, w ∈ c.waiters m → w ≠ next →
        c.nextPriority m next ≤ (c.os.threads w).current_priority) ↔
      ((c.mutex m).flag = .prio → ∀ first ∈ (c.waiters m).head?, ∀ w ∈ c.waiters m,
        (c.os.threads first).current_priority ≤ (c.os.threads w).current_priority) := by
  have hhead : (c.waiters m).head? = some next := by rw [hcons, List.head?_cons]
  cases hflag : (c.mutex m).flag with
  | fifo =>
    refine iff_of_true (fun w hw _ => ?_) (fun hc => by cases hc)
    rw [nextPriority, if_pos hflag]
    exact highest_priority_le c.os hw
  | prio =>
    have hq : c.nextPriority m next = (c.os.threads next).current_priority := by
      rw [nextPriority, if_neg (by simp [hflag])]
    rw [hq]
    constructor
    · intro h _ first hfirst w hw
      obtain rfl := Option.some.inj (hhead.symm.trans hfirst)
      by_cases hne : w = next
      · rw [hne]
      · exact h w hw hne
    · intro h w hw _
      exact h rfl next hhead w hw

/-- A step keeps the priorities inherited just when it meets the condition. -/
theorem Moves.inherits_iff (hi : MutexesInv c) (h : c.Inherits) (hm : Moves c l c'.view) :
    c'.Inherits ↔ c.PassesOn l := by
  rw [← view_inherited] at h ⊢
  generalize c'.view = k at hm
  cases hm with
  | stays htake hrelease =>
    refine iff_of_true h ?_
    cases l with
    | take t m time =>
      intro htime o ho hot
      rcases htake t m time rfl with howner | hzero
      · exact absurd (Option.some.inj (ho.symm.trans howner)) hot
      · exact absurd hzero htime
    | release t m => exact fun ho hold => absurd hold (hrelease t m rfl ho)
    | takeResumed t => trivial
    | timeout t => trivial
    | schedule => trivial
    | other os => trivial
  | @acquire t m time ho =>
    refine iff_of_true (h.acquire fun w hw => ?_) fun _ o ho' => ?_
    · have hw' : w ∈ c.waiters m := hw
      rw [hi.free m ho] at hw'
      cases hw'
    · rw [ho] at ho'
      cases ho'
  | @wait t o m time ho hot htime hidle =>
    rw [Locks.wait_inherited_iff h hi.orderly ho hot hidle]
    constructor
    · intro hchain _ o1 ho1 _ m' _ hw o' ho'
      obtain rfl := Option.some.inj (ho.symm.trans ho1)
      exact hchain m' o' hw ho'
    · intro hpass m' o' hw ho'
      exact hpass htime o ho hot m' (hi.taking m' o hw) hw o' ho'
  | leave => exact iff_of_true h.leave trivial
  | @giveUp t m ho hold hempty hidle =>
    have hnobody : ∀ w, w ∉ c.waiters m := by
      intro w hw
      rw [hempty] at hw
      cases hw
    rw [Locks.giveUp_inherited_iff h hnobody hidle]
    constructor
    · intro hrest _ _
      refine ⟨hrest, fun _ next _ w hw => ?_⟩
      exact absurd hw (hnobody w)
    · intro hpass
      exact (hpass ho hold).1
  | @handOver t next m rest ho hold hcons hidle =>
    have hnext : next ∈ c.waiters m := by
      rw [hcons]
      exact List.mem_cons_self
    rw [Locks.handOver_inherited_iff h hi.orderly hnext hidle (nextPriority_le hnext)]
    constructor
    · rintro ⟨hrest, hqueue⟩ _ _
      exact ⟨hrest, (nextPriority_le_iff hcons).mp hqueue⟩
    · intro hpass
      obtain ⟨hrest, hqueue⟩ := hpass ho hold
      exact ⟨hrest, (nextPriority_le_iff hcons).mpr hqueue⟩
  | settles hs => exact iff_of_true (h.settles hs) trivial

/-! ### Restoration -/

theorem KeepsSaved.keepsOther {t : Tid} {m : M} (h : c.KeepsSaved (.release t m))
    (ho : (c.mutex m).owner = some t) (hold : (c.mutex m).hold = 1) : c.view.KeepsOther m t := by
  intro p hp hother
  obtain ⟨m', hm, ho', hsaved⟩ := h ho hold hother
  refine ⟨m', hm, ho', ?_⟩
  simp only [view] at hp ⊢
  rw [hsaved]
  split at hp
  · exact Option.some.inj hp
  · cases hp

theorem Moves.restoring {k : Locks M Tid Nat} (h : c.view.Restoring) (hkeeps : c.KeepsSaved l)
    (hm : Moves c l k) : k.Restoring := by
  cases hm with
  | stays htake hrelease => exact h
  | acquire ho => exact h.acquire ho
  | wait ho hot htime hidle => exact h.wait ho
  | leave => exact h.leave
  | giveUp ho hold hempty hidle => exact h.giveUp ho (KeepsSaved.keepsOther hkeeps ho hold)
  | @handOver t next m rest ho hold hcons hidle =>
    apply h.handOver ho
    · rintro rfl
      apply hidle m
      rw [hcons]
      exact List.mem_cons_self
    · exact KeepsSaved.keepsOther hkeeps ho hold
  | settles hs => exact h.settles hs

end Mutexes

open Mutexes

/-- In every run whose steps pass the priorities on, the owners have inherited them, and a step that
does not meet the condition ends that. -/
theorem mutex_priority_inherited {c : Mutexes M}
    (hr : (mutexesMachine.restrict PassesOn).Reachable c) :
    c.Inherits ∧ ∀ l c', mutexesMachine.step c l c' → (c'.Inherits ↔ c.PassesOn l) := by
  have hi := reachable_mutexesInv hr.of_restrict
  have h : c.Inherits := by
    apply hr.invariant
    · exact fun c h => h.inherits
    · intro c l c' hr' h hs
      have hi' := reachable_mutexesInv hr'.of_restrict
      exact (Moves.inherits_iff hi' h (hi'.next hs.2).2).mpr hs.1
  exact ⟨h, fun l c' hs => Moves.inherits_iff hi h (hi.next hs).2⟩

/-- In every run in which the threads keep their own priorities saved, a thread that owns no mutex
runs at its own. -/
theorem mutex_priority_restored {c : Mutexes M}
    (hr : (mutexesMachine.restrict KeepsSaved).Reachable c) : c.Restores := by
  have h : c.view.Restoring := by
    apply hr.invariant
    · exact fun c h => h.restoring
    · intro c l c' hr' h hs
      exact Moves.restoring h hs.1 ((reachable_mutexesInv hr'.of_restrict).next hs.2).2
  exact view_restored.mp h.restored

/-! ### Runs of two mutexes -/

section

variable (c : Mutexes (Fin 2))

instance (l : MutexesStep (Fin 2)) : Decidable (c.PassesOn l) :=
  match l with
  | .take .. => inferInstanceAs (Decidable (_ → ∀ o, _ = some o → _ → _))
  | .release .. => inferInstanceAs (Decidable (_ → _ → _ ∧ _))
  | .takeResumed _ | .timeout _ | .schedule | .other _ => isTrue trivial

instance (l : MutexesStep (Fin 2)) : Decidable (c.KeepsSaved l) :=
  match l with
  | .release .. => inferInstanceAs (Decidable (_ → _ → _ → _))
  | .take .. | .takeResumed _ | .timeout _ | .schedule | .other _ => isTrue trivial

end

/-- Threads 1 and 2 sleep, and thread 31 runs. -/
def sleepingThreads : Option Rtos := do
  let s ← startedThreads
  let s ← (Op.sleep 20).run s
  (Op.sleep 10).run s

/-- Two mutexes of the kind `RT_IPC_FLAG_PRIO`, used by nobody. -/
def freeMutexes (os : Rtos) : Mutexes (Fin 2) where
  os := os
  mutex m := ⟨1, 0xff, 0, none, m, .prio⟩
  taking _ := none

theorem sleepingThreads_lists {os : Rtos} (h : sleepingThreads = some os) :
    os.suspend_thread = fun _ => [] := by
  have hlists : (sleepingThreads.map fun s => s.suspend_thread) = some fun _ => [] := rfl
  rw [h] at hlists
  exact Option.some.inj hlists

/-- Every thread has the priority it was created with. -/
def Created (s : Rtos) : Prop :=
  ∀ t, (s.threads t).is_thread = true → (s.threads t).current_priority = (s.threads t).init_priority

section

variable {s s' : Rtos} {t : Tid}

theorem Created.calm (h : Created s) (hc : Calm s s') : Created s' := by
  intro u hu
  have hsame := hc u
  rw [hsame.is_thread] at hu
  rw [hsame.current_priority, hsame.init_priority]
  exact h u hu

theorem rt_thread_resume_calm {r : Int} (hs : s.rt_thread_resume t = some (s', r)) : Calm s s' := by
  obtain ⟨-, hs⟩ := RT_ASSERT_bind_eq_some.mp hs
  split at hs
  · obtain ⟨rfl, -⟩ := Prod.mk.inj (Option.some.inj hs)
    exact Calm.refl s
  · obtain ⟨rfl, -⟩ := Prod.mk.inj (Option.some.inj hs)
    exact wake_calm

theorem startup_created (h : Created s) (hs : s.startup t = some s') : Created s' := by
  obtain ⟨-, hs⟩ := RT_ASSERT_bind_eq_some.mp hs
  obtain ⟨-, hs⟩ := RT_ASSERT_bind_eq_some.mp hs
  obtain ⟨⟨s1, r⟩, hres, hs⟩ := Option.bind_eq_some_iff.mp hs
  obtain rfl := Option.some.inj hs
  refine Created.calm ?_ (rt_thread_resume_calm hres)
  intro u hu
  rw [setThread_threads] at hu ⊢
  split at hu
  · rw [if_pos ‹_›]
  · rw [if_neg ‹_›]
    exact h u hu

theorem scheduler_start_calm (hs : s.rt_system_scheduler_start = some s') : Calm s s' := by
  obtain ⟨⟨next, p⟩, -, hs⟩ := Option.bind_eq_some_iff.mp hs
  obtain rfl := Option.some.inj hs
  let s1 := Rtos.rt_schedule_remove_thread { s with rt_current_thread := some next } next
  have hstart : Calm s1 (s1.setThread next fun th =>
      { th with stat := .RUNNING, stat_yield := false }) := setThread_calm ⟨rfl, rfl, rfl⟩
  exact hstart

theorem startSleep_calm {tick : Nat} (h : Inv s) (hself : Op.SelfRuns s)
    (hs : s.startSleep tick = some s') : Calm s s' := by
  obtain ⟨t, ht, hs⟩ := Option.bind_eq_some_iff.mp hs
  obtain ⟨t', ht', hrun⟩ := hself
  obtain rfl := Option.some.inj (ht'.symm.trans ht)
  rw [rt_thread_suspend_eq h (Or.inr hrun), Option.bind_eq_bind, Option.bind_some] at hs
  obtain ⟨-, hs⟩ := RT_ASSERT_bind_eq_some.mp hs
  obtain rfl := Option.some.inj hs
  exact putToSleep_calm.trans (setThread_calm ⟨rfl, rfl, rfl⟩)

theorem sleep_calm {tick : Nat} (h : Inv s) (hself : Op.SelfRuns s)
    (hs : (Op.sleep tick).run s = some s') : Calm s s' := by
  obtain ⟨s1, h1, hs⟩ := Option.bind_eq_some_iff.mp hs
  exact (startSleep_calm h hself h1).trans (rt_schedule_calm hs)

theorem startedThreads_created (hs : startedThreads = some s) : Created s := by
  rw [startedThreads] at hs
  obtain ⟨s1, h1, hs⟩ := Option.bind_eq_some_iff.mp hs
  obtain ⟨s2, h2, hs⟩ := Option.bind_eq_some_iff.mp hs
  obtain ⟨s3, h3, hs⟩ := Option.bind_eq_some_iff.mp hs
  have h0 : Created createdThreads := fun u _ => rfl
  exact (startup_created (startup_created (startup_created h0 h1) h2) h3).calm
    (scheduler_start_calm hs)

end

theorem sleepingThreads_created {os : Rtos} (h : sleepingThreads = some os) :
    Inv os ∧ Created os := by
  rw [sleepingThreads] at h
  obtain ⟨s, hs, h⟩ := Option.bind_eq_some_iff.mp h
  obtain ⟨s1, h1, h⟩ := Option.bind_eq_some_iff.mp h
  have hcur : (startedThreads.map fun s => (s.rt_current_thread, (s.threads 1).stat)) =
      some (some 1, .RUNNING) := by decide +kernel
  have hcur1 : (startedThreads.bind fun s => ((Op.sleep 20).run s).map fun s =>
      (s.rt_current_thread, (s.threads 2).stat)) = some (some 2, .RUNNING) := by decide +kernel
  rw [hs, Option.map_some] at hcur
  rw [hs, Option.bind_some, h1, Option.map_some] at hcur1
  have hself : Op.SelfRuns s := ⟨1, Prod.mk.inj (Option.some.inj hcur)⟩
  have hself1 : Op.SelfRuns s1 := ⟨2, Prod.mk.inj (Option.some.inj hcur1)⟩
  have hinv := startedThreads_inv hs
  obtain ⟨s1', h1', hinv1, -⟩ := Op.run_spec hinv (.sleep 20) ⟨hself, by decide⟩
  obtain rfl := Option.some.inj (h1'.symm.trans h1)
  obtain ⟨os', hos', hinv2, -⟩ := Op.run_spec hinv1 (.sleep 10) ⟨hself1, by decide⟩
  obtain rfl := Option.some.inj (hos'.symm.trans h)
  exact ⟨hinv2, ((startedThreads_created hs).calm (sleep_calm hinv hself h1)).calm
    (sleep_calm hinv1 hself1 hos')⟩

theorem freeMutexes_fresh {os : Rtos} (h : sleepingThreads = some os) : (freeMutexes os).Fresh where
  inv := (sleepingThreads_created h).1
  distinct _ _ heq := Fin.ext heq
  mutex _ := ⟨rfl, rfl, rfl⟩
  waiters m := congrFun (sleepingThreads_lists h) m
  taking _ := rfl
  created := (sleepingThreads_created h).2

/-- The steps that pass the priorities on. -/
def stepPasses (c : Mutexes (Fin 2)) (l : MutexesStep (Fin 2)) : Option (Mutexes (Fin 2)) :=
  if c.PassesOn l then c.step l else none

/-- The steps in which the threads keep their own priorities saved. -/
def stepKeeps (c : Mutexes (Fin 2)) (l : MutexesStep (Fin 2)) : Option (Mutexes (Fin 2)) :=
  if c.KeepsSaved l then c.step l else none

/-- Thread 31 gets the priority of thread 2 and passes the mutex on to it, and thread 2 gets the
priority of thread 1. -/
def inheritedTwice : List (MutexesStep (Fin 2)) :=
  [.take 31 0 (-1), .timeout 2, .take 2 0 (-1), .schedule, .release 31 0, .schedule, .takeResumed 2,
    .timeout 1, .take 1 0 100]

/-- Thread 2 waits for thread 31, and then gets the priority of thread 1. -/
def chainOfTwo : List (MutexesStep (Fin 2)) :=
  [.take 31 0 (-1), .timeout 2, .take 2 1 (-1), .take 2 0 (-1), .schedule, .timeout 1, .take 1 1 (-1)]

/-- Thread 31 takes a second mutex at the priority of thread 2 and gives it up first. -/
def lastTakenFirst : List (MutexesStep (Fin 2)) :=
  [.take 31 0 (-1), .timeout 2, .take 2 0 (-1), .schedule, .take 31 1 (-1), .release 31 1,
    .release 31 0]

/-- Thread 31 takes a second mutex at the priority of thread 2 and gives the first one up first. -/
def firstTakenFirst : List (MutexesStep (Fin 2)) :=
  [.take 31 0 (-1), .timeout 2, .take 2 0 (-1), .schedule, .take 31 1 (-1), .release 31 0, .schedule,
    .takeResumed 2, .take 2 1 (-1), .schedule, .release 31 1]

/-- Where these runs lead. -/
theorem runs_of_two : ∃ os, sleepingThreads = some os ∧
    (∃ c, Machine.runs stepPasses (freeMutexes os) inheritedTwice = some c ∧ c.waiters 0 = [1] ∧
      (c.mutex 0).owner = some 2 ∧ (c.os.threads 2).init_priority = 2) ∧
    (∃ c, Machine.runs Mutexes.step (freeMutexes os) chainOfTwo = some c ∧ c.waiters 0 = [2] ∧
      (c.mutex 0).owner = some 31 ∧ (c.os.threads 2).current_priority = 1 ∧
      (c.os.threads 31).current_priority = 2) ∧
    (∃ c, Machine.runs stepKeeps (freeMutexes os) lastTakenFirst = some c ∧
      (c.mutex 0).owner = some 2 ∧ (c.mutex 1).owner = none) ∧
    ∃ c, Machine.runs Mutexes.step (freeMutexes os) firstTakenFirst = some c ∧
      (∀ m, (c.mutex m).owner ≠ some 31) ∧ (c.os.threads 31).current_priority = 2 ∧
      (c.os.threads 31).init_priority = 31 ∧ (c.os.threads 31).is_thread = true := by
  decide +kernel

theorem mutex_priority_inherited_twice : ∃ os, sleepingThreads = some os ∧
    ∃ c, Machine.runs stepPasses (freeMutexes os) inheritedTwice = some c ∧ c.waiters 0 = [1] ∧
      (c.mutex 0).owner = some 2 ∧ (c.os.threads 2).init_priority = 2 ∧
      (c.Inherits ∧ ∀ l c', mutexesMachine.step c l c' → (c'.Inherits ↔ c.PassesOn l)) := by
  obtain ⟨os, hos, ⟨c, hc, hwait, howner, hinit⟩, -⟩ := runs_of_two
  refine ⟨os, hos, c, hc, hwait, howner, hinit, mutex_priority_inherited ?_⟩
  refine (Machine.Reachable.start (freeMutexes_fresh hos)).runs (fun c l c' hs => ?_) hc
  rw [stepPasses] at hs
  split at hs
  · exact ⟨‹_›, Or.inl hs⟩
  · cases hs

theorem chain_not_inherited : ∃ c : Mutexes (Fin 2), mutexesMachine.Reachable c ∧
    c.waiters 0 = [2] ∧ (c.mutex 0).owner = some 31 ∧ (c.os.threads 2).current_priority = 1 ∧
      (c.os.threads 31).current_priority = 2 ∧ ¬c.Inherits := by
  obtain ⟨os, hos, -, ⟨c, hc, hwait, howner, h2, h31⟩, -⟩ := runs_of_two
  have hreach : mutexesMachine.Reachable c :=
    (Machine.Reachable.start (freeMutexes_fresh hos)).runs (fun _ _ _ hs => Or.inl hs) hc
  refine ⟨c, hreach, hwait, howner, h2, h31, fun h => ?_⟩
  obtain ⟨o, ho, hle⟩ := h 0 2 (by rw [hwait]; exact List.mem_cons_self)
  obtain rfl := Option.some.inj (howner.symm.trans ho)
  rw [h2, h31] at hle
  exact absurd hle (by decide)

theorem mutex_priority_restored_nested : ∃ os, sleepingThreads = some os ∧
    ∃ c, Machine.runs stepKeeps (freeMutexes os) lastTakenFirst = some c ∧
      (c.mutex 0).owner = some 2 ∧ (c.mutex 1).owner = none ∧ c.Restores := by
  obtain ⟨os, hos, -, -, ⟨c, hc, h0, h1⟩, -⟩ := runs_of_two
  refine ⟨os, hos, c, hc, h0, h1, mutex_priority_restored ?_⟩
  refine (Machine.Reachable.start (freeMutexes_fresh hos)).runs (fun c l c' hs => ?_) hc
  rw [stepKeeps] at hs
  split at hs
  · exact ⟨‹_›, Or.inl hs⟩
  · cases hs

theorem priority_not_restored : ∃ c : Mutexes (Fin 2), mutexesMachine.Reachable c ∧
    (∀ m, (c.mutex m).owner ≠ some 31) ∧ (c.os.threads 31).current_priority = 2 ∧
      (c.os.threads 31).init_priority = 31 ∧ ¬c.Restores := by
  obtain ⟨os, hos, -, -, -, c, hc, hno, hprio, hinit, hth⟩ := runs_of_two
  have hreach : mutexesMachine.Reachable c :=
    (Machine.Reachable.start (freeMutexes_fresh hos)).runs (fun _ _ _ hs => Or.inl hs) hc
  refine ⟨c, hreach, hno, hprio, hinit, fun h => ?_⟩
  have heq := h 31 hth hno
  rw [hprio, hinit] at heq
  exact absurd heq (by decide)

end Ab32Vg1.Kernel
