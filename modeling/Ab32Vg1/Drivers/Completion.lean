import Ab32Vg1.Drivers.Sound

/-! Completions with timeouts, as in `completion.c`: who takes a done, when one thread waits and any
number of contexts call `rt_completion_done`. -/

namespace Ab32Vg1.Drivers

open Kernel ProofKit Rtos

namespace Completion

/-- `rt_completion_wait` up to its call of `rt_schedule`. -/
def rt_completion_wait (completion : RtCompletion) (s : Rtos) (timeout : Int) :
    Option (Rtos × RtCompletion × Outcome) :=
  if completion.completed = false then do
    let thread ← s.rt_current_thread
    RT_ASSERT (s.suspend_thread completion.suspended_list = [])
    if timeout = 0 then return (s, completion, .returned (-RT_ETIMEOUT))
    else
      let s ← s.waitOn completion.suspended_list thread .fifo timeout
      return (s, completion, .suspended)
  else some (s, { completion with completed := false }, .returned RT_EOK)

/-- The rest of `rt_completion_wait` when its thread goes on: the flag, and what is returned. -/
def waitResumed (completion : RtCompletion) (s : Rtos) (thread : Tid) : RtCompletion × Int :=
  ({ completion with completed := false }, (s.threads thread).error)

/-- The critical section of `rt_completion_done`. -/
def doneSet (completion : RtCompletion) (s : Rtos) : Option (Rtos × RtCompletion) :=
  if s.suspend_thread completion.suspended_list ≠ [] then do
    let s ← s.rt_ipc_list_resume completion.suspended_list
    return (s, { completion with completed := true })
  else some (s, { completion with completed := true })

/-- The audio thread waits forever. -/
theorem wait_forever (completion : RtCompletion) (s : Rtos) :
    completion.rt_completion_wait s = rt_completion_wait completion s (-1) := rfl

/-- Without a context between its check and its critical section `rt_completion_done` is both. -/
theorem done_parts (completion : RtCompletion) (s : Rtos) : completion.rt_completion_done s =
    if completion.completed = true then some (s, completion) else doneSet completion s := rfl

end Completion

/-! ### The machine -/

/-- A completion, the thread that waits for it, and the contexts that have found the flag unset in
`rt_completion_done`.  The dones are numbered in the order in which they set the flag; `pending` are those
since it was cleared, and each wait that returned is listed with its result and the dones that it took.
`overlapped` says that a done set the flag after another one had.  None of these is in the code. -/
structure CompletionSystem where
  os : Rtos
  completion : RtCompletion
  waiter : Tid
  waiting : Bool
  checked : Nat → Bool
  dones : Nat
  pending : List Nat
  waits : List (Int × List Nat)
  overlapped : Bool

inductive CompletionStep where
  | wait (timeout : Int)
  | waitResumed
  | doneCheck (context : Nat)
  | doneSet (context : Nat)
  | timeout
  | schedule
  | other (os : Rtos)

namespace CompletionSystem

def suspended (c : CompletionSystem) : List Tid := c.os.suspend_thread c.completion.suspended_list

/-- A wait returns and takes what is pending. -/
def returned (c : CompletionSystem) (completion : RtCompletion) (result : Int) : CompletionSystem :=
  { c with
    completion := completion, waiting := false, pending := [],
    waits := c.waits ++ [(result, c.pending)] }

def wait (c : CompletionSystem) (timeout : Int) : Option CompletionSystem :=
  if Runs c.os c.waiter ∧ c.waiting = false then do
    let (os, completion, outcome) ← Completion.rt_completion_wait c.completion c.os timeout
    match outcome with
    | .returned result => return { c with os := os }.returned completion result
    | .suspended => return { c with os := os, completion := completion, waiting := true }
  else none

def waitResumed (c : CompletionSystem) : Option CompletionSystem :=
  if Runs c.os c.waiter ∧ c.waiting = true then
    let (completion, result) := Completion.waitResumed c.completion c.os c.waiter
    some (c.returned completion result)
  else none

def doneCheck (c : CompletionSystem) (context : Nat) : Option CompletionSystem :=
  if c.checked context = true then none
  else if c.completion.completed = true then some c
  else some { c with checked := Function.update c.checked context true }

def doneSet (c : CompletionSystem) (context : Nat) : Option CompletionSystem :=
  if c.checked context = true then do
    let (os, completion) ← Completion.doneSet c.completion c.os
    return { c with
      os := os
      completion := completion
      checked := Function.update c.checked context false
      dones := c.dones + 1
      pending := c.pending ++ [c.dones]
      overlapped := c.overlapped || c.completion.completed }
  else none

/-- The timer of the waiting thread expires. -/
def timeout (c : CompletionSystem) : Option CompletionSystem :=
  if c.waiting = true ∧ (c.os.threads c.waiter).thread_timer.activated = true then
    (c.os.timerExpires c.waiter).map fun os => { c with os := os }
  else none

def step (c : CompletionSystem) : CompletionStep → Option CompletionSystem
  | .wait timeout => c.wait timeout
  | .waitResumed => c.waitResumed
  | .doneCheck context => c.doneCheck context
  | .doneSet context => c.doneSet context
  | .timeout => c.timeout
  | .schedule => c.os.rt_schedule.map fun os => { c with os := os }
  | .other _ => none

/-- A completion that was initialised, and that nobody has used. -/
structure Fresh (c : CompletionSystem) : Prop where
  inv : Inv c.os
  completed : c.completion.completed = false
  suspended : c.suspended = []
  waiting : c.waiting = false
  checked : ∀ context, c.checked context = false
  dones : c.dones = 0
  pending : c.pending = []
  waits : c.waits = []
  overlapped : c.overlapped = false

end CompletionSystem

def completionMachine : Machine CompletionSystem CompletionStep where
  start := CompletionSystem.Fresh
  step c l c' := c.step l = some c' ∨ ∃ os, l = .other os ∧ c' = { c with os := os } ∧
    Elsewhere (· = c.completion.suspended_list) (fun t => t = c.waiter ∧ c.waiting = true) c.os os

namespace CompletionSystem

/-- Each done is taken by one wait or is pending in the flag; the waits that return `RT_EOK` take one, and
more only when dones overlapped; the others take none. -/
structure CompletionContract (c : CompletionSystem) : Prop where
  once : c.waits.flatMap Prod.snd ++ c.pending = List.range c.dones
  ok : ∀ result taken, (result, taken) ∈ c.waits → result = RT_EOK → taken ≠ []
  timeout : ∀ result taken, (result, taken) ∈ c.waits → result ≠ RT_EOK → taken = []
  pending : c.pending ≠ [] ↔ c.completion.completed = true
  one : c.overlapped = false →
    c.pending.length ≤ 1 ∧ ∀ result taken, (result, taken) ∈ c.waits → taken.length ≤ 1

/-- No done sets the flag between the timeout of the waiting thread and the end of its wait. -/
def Heard (c : CompletionSystem) : CompletionStep → Prop
  | .doneSet _ => c.waiting = true → (c.os.threads c.waiter).error = RT_EOK
  | _ => True

/-! ### The invariant -/

/-- Where the waiting thread is. -/
inductive Phase (c : CompletionSystem) : Prop where
  | idle (hwaiting : c.waiting = false) (hlist : c.suspended = [])
  | suspended (hwaiting : c.waiting = true) (hlist : c.suspended = [c.waiter])
      (herror : (c.os.threads c.waiter).error = RT_EOK) (hflag : c.completion.completed = false)
  | woken (hwaiting : c.waiting = true) (hlist : c.suspended = [])
      (herror : (c.os.threads c.waiter).error = RT_EOK) (hflag : c.completion.completed = true)
      (htimer : (c.os.threads c.waiter).thread_timer.activated = false)
  | timedOut (hwaiting : c.waiting = true) (hlist : c.suspended = [])
      (herror : (c.os.threads c.waiter).error ≠ RT_EOK) (hflag : c.completion.completed = false)
      (htimer : (c.os.threads c.waiter).thread_timer.activated = false)

structure CompletionInv (c : CompletionSystem) : Prop where
  inv : Inv c.os
  contract : CompletionContract c
  phase : Phase c

variable {c c' : CompletionSystem}

theorem Fresh.completionInv (h : c.Fresh) : CompletionInv c := by
  refine ⟨h.inv, ⟨?_, ?_, ?_, ?_, ?_⟩, .idle h.waiting h.suspended⟩
  · rw [h.waits, h.pending, h.dones]
    rfl
  · simp [h.waits]
  · simp [h.waits]
  · simp [h.pending, h.completed]
  · simp [h.pending, h.waits]

/-- Changes of the rest of the system. -/
theorem CompletionContract.os (h : CompletionContract c) (os : Rtos) :
    CompletionContract { c with os := os } :=
  ⟨h.once, h.ok, h.timeout, h.pending, h.one⟩

theorem Phase.kept {os : Rtos} (h : Phase c)
    (hlist : os.suspend_thread c.completion.suspended_list = c.suspended)
    (hkept : c.waiting = true → Kept (c.os.threads c.waiter) (os.threads c.waiter)) :
    Phase { c with os := os } := by
  have hquiet : ∀ hw : c.waiting = true, (c.os.threads c.waiter).thread_timer.activated = false →
      (os.threads c.waiter).thread_timer.activated = false := by
    intro hw htimer
    by_contra hact
    have := (hkept hw).timer (by simpa using hact)
    rw [htimer] at this
    cases this
  cases h with
  | idle hw hl => exact .idle hw (hlist.trans hl)
  | suspended hw hl he hf => exact .suspended hw (hlist.trans hl) ((hkept hw).error.trans he) hf
  | woken hw hl he hf ht =>
    exact .woken hw (hlist.trans hl) ((hkept hw).error.trans he) hf (hquiet hw ht)
  | timedOut hw hl he hf ht =>
    exact .timedOut hw (hlist.trans hl) (by rw [(hkept hw).error]; exact he) hf (hquiet hw ht)

theorem CompletionInv.elsewhere {os : Rtos} (h : CompletionInv c)
    (he : Elsewhere (· = c.completion.suspended_list) (fun t => t = c.waiter ∧ c.waiting = true)
      c.os os) : CompletionInv { c with os := os } :=
  ⟨he.inv, h.contract.os os, h.phase.kept (he.suspend _ rfl) fun hw => he.kept _ ⟨rfl, hw⟩⟩

/-- A wait that returns `RT_EOK` with the flag set, or another result with the flag unset. -/
theorem CompletionContract.returned (h : CompletionContract c) {completion : RtCompletion} {result : Int}
    (hflag : completion.completed = false) (hresult : result = RT_EOK ↔ c.completion.completed = true) :
    CompletionContract (c.returned completion result) := by
  have hmem : ∀ result' taken, (result', taken) ∈ c.waits ++ [(result, c.pending)] →
      (result', taken) ∈ c.waits ∨ result' = result ∧ taken = c.pending := by
    intro result' taken hm
    rcases List.mem_append.mp hm with hm | hm
    · exact Or.inl hm
    · exact Or.inr (Prod.mk.inj (List.mem_singleton.mp hm))
  refine ⟨?_, fun result' taken hm hok => ?_, fun result' taken hm hno => ?_, ?_, fun hone => ⟨?_, ?_⟩⟩
  · show (c.waits ++ [(result, c.pending)]).flatMap Prod.snd ++ [] = _
    rw [List.append_nil, List.flatMap_append, List.flatMap_singleton]
    exact h.once
  · rcases hmem _ _ hm with hm | ⟨rfl, rfl⟩
    · exact h.ok _ _ hm hok
    · exact h.pending.mpr (hresult.mp hok)
  · rcases hmem _ _ hm with hm | ⟨rfl, rfl⟩
    · exact h.timeout _ _ hm hno
    · by_contra hne
      exact hno (hresult.mpr (h.pending.mp hne))
  · show [] ≠ [] ↔ completion.completed = true
    simp [hflag]
  · exact Nat.zero_le 1
  · intro result' taken hm
    rcases hmem _ _ hm with hm | ⟨-, rfl⟩
    · exact (h.one hone).2 _ _ hm
    · exact (h.one hone).1

theorem CompletionInv.wait {timeout : Int} (h : CompletionInv c) (hs : c.wait timeout = some c') :
    CompletionInv c' := by
  obtain ⟨⟨hrun, hidle⟩, hs⟩ := Option.ite_none_right_eq_some.mp hs
  obtain ⟨⟨os, completion, outcome⟩, hwait, hs⟩ := Option.bind_eq_some_iff.mp hs
  have hlist : c.suspended = [] := by
    cases h.phase with
    | idle _ hl => exact hl
    | suspended hw _ _ _ =>
      rw [hidle] at hw
      cases hw
    | woken _ hl _ _ _ => exact hl
    | timedOut _ hl _ _ _ => exact hl
  unfold Completion.rt_completion_wait at hwait
  by_cases hflag : c.completion.completed = false
  · rw [if_pos hflag] at hwait
    obtain ⟨t, hcur, hwait⟩ := Option.bind_eq_some_iff.mp hwait
    obtain rfl := Option.some.inj (hrun.1.symm.trans hcur)
    obtain ⟨-, hwait⟩ := RT_ASSERT_bind_eq_some.mp hwait
    by_cases htime : timeout = 0
    · rw [if_pos htime] at hwait
      cases hwait
      obtain rfl := Option.some.inj hs
      exact ⟨h.inv, (h.contract.os c.os).returned hflag (by simp [hflag]; decide), .idle rfl hlist⟩
    · rw [if_neg htime] at hwait
      obtain ⟨os', hos, hwait⟩ := Option.bind_eq_some_iff.mp hwait
      cases hwait
      obtain rfl := Option.some.inj hs
      have hw := waitOn_waits h.inv hrun.2 hos
      refine ⟨hw.inv, ⟨h.contract.once, h.contract.ok, h.contract.timeout, h.contract.pending,
        h.contract.one⟩, .suspended rfl ?_ hw.error hflag⟩
      refine List.perm_singleton.mp ((List.perm_ext_iff_of_nodup (hw.inv.suspend_nodup _)
        (List.nodup_singleton _)).mpr fun u => ?_)
      rw [hw.mem, show c.os.suspend_thread c.completion.suspended_list = [] from hlist]
      simp
  · rw [if_neg hflag] at hwait
    cases hwait
    obtain rfl := Option.some.inj hs
    exact ⟨h.inv, (h.contract.os c.os).returned rfl (by simpa using hflag), .idle rfl hlist⟩

theorem CompletionInv.waitResumed (h : CompletionInv c) (hs : c.waitResumed = some c') :
    CompletionInv c' := by
  obtain ⟨⟨hrun, hwaiting⟩, hs⟩ := Option.ite_none_right_eq_some.mp hs
  obtain rfl := Option.some.inj hs
  have hnot : c.waiter ∉ c.suspended := hrun.not_waiting h.inv _
  have hresult : c.suspended = [] ∧
      ((c.os.threads c.waiter).error = RT_EOK ↔ c.completion.completed = true) := by
    cases h.phase with
    | idle hw _ =>
      rw [hwaiting] at hw
      cases hw
    | suspended _ hl _ _ =>
      rw [hl] at hnot
      exact absurd (List.mem_singleton.mpr rfl) hnot
    | woken _ hl he hf _ => exact ⟨hl, by simp [he, hf]⟩
    | timedOut _ hl he hf _ => exact ⟨hl, by simp [he, hf]⟩
  exact ⟨h.inv, h.contract.returned rfl hresult.2, .idle rfl hresult.1⟩

/-- A done sets the flag. -/
theorem CompletionContract.done (h : CompletionContract c) {os : Rtos} {completion : RtCompletion}
    (hflag : completion.completed = true) (checked : Nat → Bool) : CompletionContract { c with
      os := os
      completion := completion
      checked := checked
      dones := c.dones + 1
      pending := c.pending ++ [c.dones]
      overlapped := c.overlapped || c.completion.completed } := by
  refine ⟨?_, h.ok, h.timeout, by simp [hflag], fun hone => ?_⟩
  · show c.waits.flatMap Prod.snd ++ (c.pending ++ [c.dones]) = List.range (c.dones + 1)
    rw [← List.append_assoc, h.once, List.range_succ]
  · obtain ⟨hone, hunset⟩ := Bool.or_eq_false_iff.mp hone
    have hpending : c.pending = [] := by
      by_contra hne
      rw [h.pending.mp hne] at hunset
      cases hunset
    refine ⟨?_, (h.one hone).2⟩
    show (c.pending ++ [c.dones]).length ≤ 1
    rw [hpending]
    exact Nat.le_refl 1

theorem CompletionInv.doneSet {context : Nat} (h : CompletionInv c)
    (hheard : c.waiting = true → (c.os.threads c.waiter).error = RT_EOK)
    (hs : c.doneSet context = some c') : CompletionInv c' := by
  obtain ⟨-, hs⟩ := Option.ite_none_right_eq_some.mp hs
  obtain ⟨⟨os, completion⟩, hdone, hs⟩ := Option.bind_eq_some_iff.mp hs
  obtain rfl := Option.some.inj hs
  unfold Completion.doneSet at hdone
  by_cases hlist : c.os.suspend_thread c.completion.suspended_list = []
  · rw [if_neg (not_not.mpr hlist)] at hdone
    cases hdone
    refine ⟨h.inv, h.contract.done rfl _, ?_⟩
    cases h.phase with
    | idle hw hl => exact .idle hw hl
    | suspended _ hl _ _ => cases hl.symm.trans hlist
    | woken hw hl he _ ht => exact .woken hw hl he rfl ht
    | timedOut hw _ he _ _ => exact absurd (hheard hw) he
  · rw [if_pos hlist] at hdone
    obtain ⟨os', hos, hdone⟩ := Option.bind_eq_some_iff.mp hdone
    cases hdone
    cases h.phase with
    | idle _ hl => exact absurd hl hlist
    | woken _ hl _ _ _ => exact absurd hl hlist
    | timedOut _ hl _ _ _ => exact absurd hl hlist
    | suspended hw hl he _ =>
      obtain ⟨hresume, hwoken⟩ := rt_ipc_list_resume_woken h.inv hl
      obtain rfl := Option.some.inj (hresume.symm.trans hos)
      refine ⟨hwoken.inv, h.contract.done rfl _, .woken hw ?_ ((hwoken.kept _).error.trans he) rfl
        hwoken.timer⟩
      have htail := hwoken.suspend c.completion.suspended_list
      rw [if_pos rfl, show c.os.suspend_thread c.completion.suspended_list = [c.waiter] from hl] at htail
      exact htail

theorem CompletionInv.timeout (h : CompletionInv c) (hs : c.timeout = some c') : CompletionInv c' := by
  obtain ⟨⟨hwaiting, hact⟩, hs⟩ := Option.ite_none_right_eq_some.mp hs
  obtain ⟨os, hos, rfl⟩ := Option.map_eq_some_iff.mp hs
  have hto := timerExpires_timedOut h.inv hos
  refine ⟨hto.inv, h.contract.os os, ?_⟩
  cases h.phase with
  | idle hw _ =>
    rw [hwaiting] at hw
    cases hw
  | woken _ _ _ _ ht =>
    rw [hact] at ht
    cases ht
  | timedOut _ _ _ _ ht =>
    rw [hact] at ht
    cases ht
  | suspended hw hl _ hf =>
    refine .timedOut hw ?_ ?_ hf hto.timer
    · show os.suspend_thread c.completion.suspended_list = []
      rw [hto.suspend, show c.os.suspend_thread c.completion.suspended_list = [c.waiter] from hl]
      simp
    · show (os.threads c.waiter).error ≠ RT_EOK
      rw [hto.error]
      decide

theorem CompletionInv.step {l : CompletionStep} (h : CompletionInv c) (hheard : c.Heard l)
    (hs : c.step l = some c') : CompletionInv c' := by
  cases l with
  | wait timeout => exact h.wait hs
  | waitResumed => exact h.waitResumed hs
  | doneCheck context =>
    obtain ⟨-, hs⟩ := Option.ite_none_left_eq_some.mp hs
    split at hs
    · obtain rfl := Option.some.inj hs
      exact h
    · obtain rfl := Option.some.inj hs
      refine ⟨h.inv, ⟨h.contract.once, h.contract.ok, h.contract.timeout, h.contract.pending,
        h.contract.one⟩, ?_⟩
      cases h.phase with
      | idle hw hl => exact .idle hw hl
      | suspended hw hl he hf => exact .suspended hw hl he hf
      | woken hw hl he hf ht => exact .woken hw hl he hf ht
      | timedOut hw hl he hf ht => exact .timedOut hw hl he hf ht
  | doneSet context => exact h.doneSet hheard hs
  | timeout => exact h.timeout hs
  | schedule =>
    obtain ⟨os, hos, rfl⟩ := Option.map_eq_some_iff.mp hs
    exact h.elsewhere (rt_schedule_elsewhere h.inv hos)
  | other os => cases hs

end CompletionSystem

open CompletionSystem

/-- In every run in which no done falls between the timeout of the waiting thread and the end of its wait,
each done is taken by one wait that returns `RT_EOK`, or is pending. -/
theorem completion_takes {c : CompletionSystem} (hr : (completionMachine.restrict Heard).Reachable c) :
    CompletionContract c := by
  have h : CompletionInv c := by
    apply hr.invariant
    · exact fun c h => h.completionInv
    · rintro c l c' - h ⟨hheard, hs | ⟨os, -, rfl, he⟩⟩
      · exact h.step hheard hs
      · exact h.elsewhere he
  exact h.contract

/-- A completion that thread 1 waits for. -/
def newCompletion (os : Rtos) : CompletionSystem :=
  { os := os, completion := ⟨false, 0⟩, waiter := 1, waiting := false, checked := fun _ => false,
    dones := 0, pending := [], waits := [], overlapped := false }

theorem newCompletion_fresh {os : Rtos} (hos : startedThreads = some os)
    (hlist : os.suspend_thread 0 = []) : (newCompletion os).Fresh :=
  ⟨startedThreads_inv hos, rfl, hlist, rfl, fun _ => rfl, rfl, rfl, rfl, rfl⟩

instance (c : CompletionSystem) (l : CompletionStep) : Decidable (c.Heard l) :=
  match l with
  | .doneSet _ => inferInstanceAs (Decidable (_ → _))
  | .wait _ => isTrue trivial
  | .waitResumed => isTrue trivial
  | .doneCheck _ => isTrue trivial
  | .timeout => isTrue trivial
  | .schedule => isTrue trivial
  | .other _ => isTrue trivial

def heardStep (c : CompletionSystem) (l : CompletionStep) : Option CompletionSystem :=
  if c.Heard l then c.step l else none

/-- A wait is woken, the next one times out, and the third one finds a done. -/
def threeWaits : List CompletionStep :=
  [.wait 10, .schedule, .doneCheck 0, .doneSet 0, .schedule, .waitResumed, .wait 10, .schedule, .timeout,
    .schedule, .waitResumed, .doneCheck 0, .doneSet 0, .wait 0]

theorem completion_takes_three : ∃ os, startedThreads = some os ∧
    ∃ c, Machine.runs heardStep (newCompletion os) threeWaits = some c ∧
      c.waits = [(0, [0]), (-2, []), (0, [1])] ∧ CompletionContract c := by
  have hrun : ∃ os, startedThreads = some os ∧
      ∃ c, Machine.runs heardStep (newCompletion os) threeWaits = some c ∧
        c.waits = [(0, [0]), (-2, []), (0, [1])] ∧ os.suspend_thread 0 = [] := by
    decide +kernel
  obtain ⟨os, hos, c, hc, hwaits, hlist⟩ := hrun
  refine ⟨os, hos, c, hc, hwaits, completion_takes ?_⟩
  refine (Machine.Reachable.start (newCompletion_fresh hos hlist)).runs (fun c l c' hs => ?_) hc
  obtain ⟨hheard, hs⟩ := Option.ite_none_right_eq_some.mp hs
  exact ⟨hheard, Or.inl hs⟩

/-- The done comes when the timer has expired and the thread has not run yet. -/
def lateDone : List CompletionStep :=
  [.wait 10, .schedule, .timeout, .doneCheck 0, .doneSet 0, .schedule, .waitResumed]

theorem completion_takes_fails : ¬∀ c, completionMachine.Reachable c → CompletionContract c := by
  have hrun : ∃ os, startedThreads = some os ∧ ∃ c,
      Machine.runs CompletionSystem.step (newCompletion os) lateDone = some c ∧
        c.waits = [(-2, [0])] ∧ os.suspend_thread 0 = [] := by
    decide +kernel
  obtain ⟨os, hos, c, hc, hwaits, hlist⟩ := hrun
  intro h
  have hr : completionMachine.Reachable c :=
    (Machine.Reachable.start (newCompletion_fresh hos hlist)).runs (fun _ _ _ hs => Or.inl hs) hc
  have hnone := (h c hr).timeout (-2) [0] (by rw [hwaits]; exact List.mem_singleton.mpr rfl) (by decide)
  cases hnone

end Ab32Vg1.Drivers
