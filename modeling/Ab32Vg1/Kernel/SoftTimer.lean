import Ab32Vg1.Kernel.TimerRun

/-! The thread of the soft timers of `timer.c`: it reads the next timeout and the tick, suspends itself
or sleeps until then, and checks the soft timers, while other threads start and stop them. -/

namespace Ab32Vg1.Kernel

open ProofKit

inductive SoftTimerStatus where
  | IDLE
  | BUSY
  deriving DecidableEq, Repr

/-- Where the loop of `rt_thread_timer_entry` stands: `got` with the next timeout, `ticked` with the
tick as well, `calling` in the timeout function of a timer. -/
inductive SoftPc where
  | top
  | got (next_timeout : Nat)
  | ticked (next_timeout current_tick : Nat)
  | check
  | calling (t : TimerId)
  deriving DecidableEq, Repr

/-- The timers and the thread `timer_thread`: `thread_timer` is its own timer, and `suspended` says
that its state is `RT_THREAD_SUSPEND`.  The list `list` of the timers is the one of
`rt_soft_timer_check`.  Of the callers of `rt_timer_start` for a soft timer, `starting` have put
their timer in the list and have yet to look at the thread, and `resuming` found it suspended and
have yet to call `rt_thread_resume`. -/
structure SoftTimers where
  store : Timers
  thread_timer : TimerId
  soft_timer_status : SoftTimerStatus
  suspended : Bool
  pc : SoftPc
  starting : Nat
  resuming : Nat

/-- `loop` is the timer thread, up to its next access to what is shared; `startInside` is a start by
a timeout function, which runs on the timer thread. -/
inductive SoftStep where
  | loop
  | start (t : TimerId)
  | look
  | resume
  | stop (t : TimerId)
  | stopLate (t : TimerId)
  | setTime (t : TimerId) (time : Nat)
  | startInside (t : TimerId)
  | tick
  | expire
  deriving DecidableEq, Repr

/-- The first timer is always the first of the list. -/
def Timers.rt_timer_list_next_timeout (s : Timers) (timer_list : List TimerId) : Nat :=
  match timer_list with
  | [] => RT_TICK_MAX
  | t :: _ => (s.timers t).timeout_tick

namespace SoftTimers

def timer (c : SoftTimers) (t : TimerId) : Timer := c.store.timers t

/-- `rt_thread_suspend(rt_thread_self())` -/
def suspendSelf (c : SoftTimers) : SoftTimers :=
  { c with suspended := true, store := (c.store.rt_timer_stop c.thread_timer).1 }

/-- The critical section of `rt_thread_sleep`. -/
def sleep (c : SoftTimers) (tick : Nat) : Option SoftTimers := do
  let c := c.suspendSelf
  let store := c.store.rt_timer_control_set_time c.thread_timer tick
  let store ← store.rt_timer_start c.thread_timer
  return { c with store := store }

/-- `rt_thread_resume(&timer_thread)` -/
def rt_thread_resume (c : SoftTimers) : SoftTimers :=
  if c.suspended then
    { c with suspended := false, store := (c.store.rt_timer_stop c.thread_timer).1 }
  else c

/-- The head of the loop of `rt_soft_timer_check`, up to its call of the timeout function. -/
def checkHead (c : SoftTimers) : SoftTimers :=
  match c.store.rt_soft_timer_list with
  | [] => { c with pc := .top }
  | t :: _ =>
    if tickReached c.store.rt_tick (c.timer t).timeout_tick then
      { c with store := c.store.takeDue t, soft_timer_status := .BUSY, pc := .calling t }
    else { c with pc := .top }

def loop (c : SoftTimers) : Option SoftTimers :=
  if c.suspended then none
  else
    match c.pc with
    | .top =>
      some { c with pc := .got (c.store.rt_timer_list_next_timeout c.store.rt_soft_timer_list) }
    | .got next_timeout =>
      if next_timeout = RT_TICK_MAX then some { c.suspendSelf with pc := .check }
      else some { c with pc := .ticked next_timeout c.store.rt_tick }
    | .ticked next_timeout current_tick =>
      if sub32 next_timeout current_tick < RT_TICK_MAX / 2 then
        (c.sleep (sub32 next_timeout current_tick)).map fun c => { c with pc := .check }
      else some { c with pc := .check }
    | .check => some c.checkHead
    | .calling t => do
      -- the timeout function returns, and the loop goes on with interrupts disabled
      let store ← c.store.afterTimeout t
      return { c with store := store, soft_timer_status := .IDLE }.checkHead

/-- Another thread puts a soft timer in the list. -/
def start (c : SoftTimers) (t : TimerId) : Option SoftTimers :=
  if (c.timer t).soft = true then do
    let store ← c.store.rt_timer_start t
    return { c with store := store, starting := c.starting + 1 }
  else none

/-- A caller of `rt_timer_start` looks whether the timer thread has to be resumed. -/
def look (c : SoftTimers) : Option SoftTimers :=
  if 0 < c.starting then
    some { c with
      starting := c.starting - 1
      resuming := c.resuming + if c.soft_timer_status = .IDLE ∧ c.suspended then 1 else 0 }
  else none

def resume (c : SoftTimers) : Option SoftTimers :=
  if 0 < c.resuming then some { c.rt_thread_resume with resuming := c.resuming - 1 } else none

def stop (c : SoftTimers) (t : TimerId) : Option SoftTimers :=
  if (c.timer t).soft = true then some { c with store := (c.store.rt_timer_stop t).1 } else none

/-- A caller of `rt_timer_stop` goes on that was interrupted after it had seen the timer active. -/
def stopLate (c : SoftTimers) (t : TimerId) : Option SoftTimers :=
  if (c.timer t).soft = true then some { c with store := c.store.stopChecked t } else none

def setTime (c : SoftTimers) (t : TimerId) (time : Nat) : Option SoftTimers :=
  if (c.timer t).soft = true then
    some { c with store := c.store.rt_timer_control_set_time t time }
  else none

def startInside (c : SoftTimers) (t : TimerId) : Option SoftTimers :=
  match c.pc with
  | .calling _ =>
    if (c.timer t).soft = true ∧ c.suspended = false then
      (c.store.rt_timer_start t).map fun store => { c with store := store }
    else none
  | _ => none

/-- The tick interrupt finds the own timer of the thread due, and `rt_thread_timeout` resumes it. -/
def expire (c : SoftTimers) : Option SoftTimers :=
  if c.suspended ∧ (c.timer c.thread_timer).activated ∧
      tickReached c.store.rt_tick (c.timer c.thread_timer).timeout_tick then
    some { c with suspended := false, store := c.store.stopChecked c.thread_timer }
  else none

def step (c : SoftTimers) : SoftStep → Option SoftTimers
  | .loop => c.loop
  | .start t => c.start t
  | .look => c.look
  | .resume => c.resume
  | .stop t => c.stop t
  | .stopLate t => c.stopLate t
  | .setTime t time => c.setTime t time
  | .startInside t => c.startInside t
  | .tick => some { c with store := { c.store with rt_tick := add32 c.store.rt_tick 1 } }
  | .expire => c.expire

/-- After `rt_system_timer_thread_init`, at any tick. -/
structure Fresh (c : SoftTimers) : Prop where
  lists : c.store.rt_soft_timer_list = [] ∧ c.store.rt_timer_list = [] ∧ c.store.list = []
  own : (c.timer c.thread_timer).soft = false
  status : c.soft_timer_status = .IDLE
  suspended : c.suspended = false
  pc : c.pc = .top
  starts : c.starting = 0 ∧ c.resuming = 0

/-- The thread is delayed on its own timer, to a tick that is not later than any soft timeout. -/
def DelayedInTime (c : SoftTimers) : Prop :=
  (c.timer c.thread_timer).activated = true ∧ c.thread_timer ∈ c.store.rt_timer_list ∧
    ∀ t ∈ c.store.rt_soft_timer_list,
      sub32 (c.timer t).timeout_tick (c.timer c.thread_timer).timeout_tick < RT_TICK_MAX / 2

/-- The suspended thread does not sleep past a timer, once every start has come to its end. -/
def SleepsInTime (c : SoftTimers) : Prop :=
  c.suspended = true → c.store.rt_soft_timer_list ≠ [] → c.starting = 0 → c.resuming = 0 →
    c.DelayedInTime

/-- What the thread has read still holds when it goes to sleep: that there is no soft timer, or that
the tick is the one it read and no timer of the list has a timeout before the one it read. -/
def ReadHolds (c : SoftTimers) : SoftPc → Prop
  | .got next_timeout => next_timeout ≠ RT_TICK_MAX
  | .ticked next_timeout current_tick =>
    sub32 next_timeout current_tick < RT_TICK_MAX / 2 → c.store.rt_tick = current_tick ∧
      ∀ t ∈ c.store.rt_soft_timer_list, sub32 (c.timer t).timeout_tick next_timeout < RT_TICK_MAX / 2
  | _ => True

/-- The thread goes to sleep when there is no soft timer, a start has yet to wake it, or what it has
read still holds. -/
def StillHolds (c : SoftTimers) : SoftStep → Prop
  | .loop => 0 < c.starting ∨ 0 < c.resuming ∨ c.store.rt_soft_timer_list = [] ∨ c.ReadHolds c.pc
  | _ => True

instance (c : SoftTimers) (pc : SoftPc) : Decidable (c.ReadHolds pc) :=
  match pc with
  | .got _ => inferInstanceAs (Decidable (_ ≠ _))
  | .ticked .. => inferInstanceAs (Decidable (_ → _ = _ ∧ ∀ t ∈ _, _))
  | .top | .check | .calling _ => isTrue trivial

instance (c : SoftTimers) (l : SoftStep) : Decidable (c.StillHolds l) :=
  match l with
  | .loop => inferInstanceAs (Decidable (_ ∨ _ ∨ _ ∨ _))
  | .start _ | .look | .resume | .stop _ | .stopLate _ | .setTime .. | .startInside _ | .tick
  | .expire => isTrue trivial

end SoftTimers

def softTimerMachine : Machine SoftTimers SoftStep where
  start := SoftTimers.Fresh
  step c l c' := c.step l = some c'

/-! ### The invariant -/

namespace Timers

variable {s s' : Timers} {t u : TimerId}

/-- The soft timers after a start. -/
theorem rt_timer_start_soft_list (hs : s.rt_timer_start t = some s')
    (hu : u ∈ s'.rt_soft_timer_list) :
    u = t ∧ (s.timers t).soft = true ∨ u ∈ s.rt_soft_timer_list := by
  obtain ⟨-, hs⟩ := RT_ASSERT_bind_eq_some.mp hs
  obtain rfl := Option.some.inj hs
  have hrest : u ∈ s.rt_soft_timer_list.filter (· ≠ t) → u ∈ s.rt_soft_timer_list :=
    fun h => (List.mem_filter.mp h).1
  cases hsoft : (s.timers t).soft with
  | true =>
    simp only [setTimer, _rt_timer_remove, Function.update_self, hsoft, if_true, insert,
      mem_insertStable] at hu
    rcases hu with rfl | hu
    · exact Or.inl ⟨rfl, rfl⟩
    · exact Or.inr (hrest hu)
  | false =>
    simp only [setTimer, _rt_timer_remove, Function.update_self, hsoft, Bool.false_eq_true,
      if_false] at hu
    exact Or.inr (hrest hu)

/-- A hard timer is in the list once it is started. -/
theorem rt_timer_start_hard (hs : s.rt_timer_start t = some s') (hsoft : (s.timers t).soft = false) :
    t ∈ s'.rt_timer_list := by
  rw [(rt_timer_start_starts hs).hard hsoft]
  exact mem_insertStable.mpr (Or.inl rfl)

end Timers

namespace SoftTimers

variable {c c' : SoftTimers} {t : TimerId}

structure SoftInv (c : SoftTimers) : Prop where
  own : (c.timer c.thread_timer).soft = false
  soft : ∀ t ∈ c.store.rt_soft_timer_list, (c.timer t).soft = true
  status : c.soft_timer_status = .BUSY → c.suspended = false ∧ ∃ t, c.pc = .calling t
  sleeps : c.suspended = true → 0 < c.starting ∨ 0 < c.resuming ∨
    c.store.rt_soft_timer_list = [] ∨ c.DelayedInTime

theorem Fresh.softInv (h : Fresh c) : SoftInv c where
  own := h.own
  soft t ht := by
    rw [h.lists.1] at ht
    cases ht
  status hb := by
    rw [h.status] at hb
    cases hb
  sleeps hs := by
    rw [h.suspended] at hs
    cases hs

/-- An operation on a soft timer that puts none in the list. -/
structure Spares (s s' : Timers) (own : TimerId) : Prop where
  flags : ∀ u, (s'.timers u).soft = (s.timers u).soft
  same : s'.timers own = s.timers own
  mem : own ∈ s.rt_timer_list → own ∈ s'.rt_timer_list
  soft : ∀ u ∈ s'.rt_soft_timer_list, u ∈ s.rt_soft_timer_list ∧
    (s'.timers u).timeout_tick = (s.timers u).timeout_tick

theorem SoftInv.spares {store : Timers} (h : SoftInv c) (hs : Spares c.store store c.thread_timer) :
    SoftInv { c with store := store } := by
  refine ⟨(hs.flags _).trans h.own, fun t ht => ?_, h.status, fun hsusp => ?_⟩
  · exact (hs.flags t).trans (h.soft t (hs.soft t ht).1)
  · rcases h.sleeps hsusp with hstart | hres | hempty | hdelay
    · exact Or.inl hstart
    · exact Or.inr (Or.inl hres)
    · refine Or.inr (Or.inr (Or.inl ?_))
      apply List.eq_nil_iff_forall_not_mem.mpr
      intro u hu
      have hmem := (hs.soft u hu).1
      rw [hempty] at hmem
      cases hmem
    · obtain ⟨hact, hmem, hall⟩ := hdelay
      refine Or.inr (Or.inr (Or.inr ⟨?_, hs.mem hmem, fun u hu => ?_⟩))
      · show (store.timers c.thread_timer).activated = true
        rw [hs.same]
        exact hact
      · obtain ⟨hold, htick⟩ := hs.soft u hu
        show sub32 (store.timers u).timeout_tick (store.timers c.thread_timer).timeout_tick < _
        rw [hs.same, htick]
        exact hall u hold

theorem stopChecked_timers (s : Timers) (t u : TimerId) : (s.stopChecked t).timers u =
    if u = t then { s.timers u with activated := false } else s.timers u := by
  by_cases hut : u = t
  · subst hut
    rw [if_pos rfl]
    exact Timers.setTimer_self ..
  · rw [if_neg hut]
    exact Timers.setTimer_of_ne _ _ hut

theorem stopChecked_spares {s : Timers} {own : TimerId} (hne : own ≠ t) :
    Spares s (s.stopChecked t) own := by
  refine ⟨fun u => ?_, ?_, fun hmem => ?_, fun u hu => ⟨(List.mem_filter.mp hu).1, ?_⟩⟩
  · rw [stopChecked_timers]
    split <;> rfl
  · rw [stopChecked_timers, if_neg hne]
  · exact List.mem_filter.mpr ⟨hmem, by simpa using hne⟩
  · rw [stopChecked_timers]
    split <;> rfl

theorem Spares.refl (s : Timers) (own : TimerId) : Spares s s own :=
  ⟨fun _ => rfl, rfl, fun h => h, fun _ hu => ⟨hu, rfl⟩⟩

theorem rt_timer_stop_spares {s : Timers} {own : TimerId} (hne : own ≠ t) :
    Spares s (s.rt_timer_stop t).1 own := by
  rw [Timers.rt_timer_stop]
  split
  · exact Spares.refl s own
  · exact stopChecked_spares hne

theorem SoftInv.ne_own (h : SoftInv c) (ht : (c.timer t).soft = true) : c.thread_timer ≠ t := by
  rintro rfl
  rw [h.own] at ht
  cases ht

/-! ### The timer thread -/

/-- Timers keep their kind, and only soft ones come into the list of the soft timers. -/
structure Sorted (s s' : Timers) : Prop where
  flags : ∀ u, (s'.timers u).soft = (s.timers u).soft
  soft : ∀ u ∈ s'.rt_soft_timer_list, u ∈ s.rt_soft_timer_list ∨ (s.timers u).soft = true

variable {s s' s1 : Timers}

theorem Sorted.refl (s : Timers) : Sorted s s := ⟨fun _ => rfl, fun _ h => Or.inl h⟩

theorem Sorted.trans (h : Sorted s s1) (h' : Sorted s1 s') : Sorted s s' where
  flags u := (h'.flags u).trans (h.flags u)
  soft u hu := by
    rcases h'.soft u hu with hold | hsoft
    · exact h.soft u hold
    · exact Or.inr ((h.flags u).symm.trans hsoft)

theorem rt_timer_start_sorted (hs : s.rt_timer_start t = some s') : Sorted s s' where
  flags u := ((Timers.rt_timer_start_starts hs).fixed u).soft
  soft u hu := by
    rcases Timers.rt_timer_start_soft_list hs hu with ⟨rfl, hsoft⟩ | hold
    · exact Or.inr hsoft
    · exact Or.inl hold

theorem setTimer_sorted {f : Timer → Timer} (hf : ∀ timer, (f timer).soft = timer.soft) :
    Sorted s (s.setTimer t f) where
  flags u := by
    by_cases hut : u = t
    · subst hut
      rw [Timers.setTimer_self, hf]
    · rw [Timers.setTimer_of_ne _ _ hut]
  soft _ hu := Or.inl hu

theorem remove_sorted : Sorted s (s._rt_timer_remove t) :=
  ⟨fun _ => rfl, fun _ hu => Or.inl (List.mem_filter.mp hu).1⟩

theorem stopChecked_sorted : Sorted s (s.stopChecked t) :=
  remove_sorted.trans (setTimer_sorted fun _ => rfl)

theorem rt_timer_stop_sorted : Sorted s (s.rt_timer_stop t).1 := by
  rw [Timers.rt_timer_stop]
  split
  · exact Sorted.refl s
  · exact stopChecked_sorted

theorem takeDue_sorted : Sorted s (s.takeDue t) := by
  have hlist : ∀ s1 : Timers, Sorted s1 { s1 with list := t :: s1.list } := fun s1 =>
    ⟨fun _ => rfl, fun _ hu => Or.inl hu⟩
  rw [Timers.takeDue]
  split
  · exact remove_sorted.trans (hlist _)
  · have hclear : Sorted (s._rt_timer_remove t) ((s._rt_timer_remove t).setTimer t fun timer =>
        { timer with activated := false }) := setTimer_sorted fun _ => rfl
    exact (remove_sorted.trans hclear).trans (hlist _)

theorem afterTimeout_sorted (hs : s.afterTimeout t = some s') : Sorted s s' := by
  rw [Timers.afterTimeout] at hs
  by_cases hempty : s.list = []
  · rw [if_pos hempty] at hs
    obtain rfl := Option.some.inj hs
    exact Sorted.refl s
  · rw [if_neg hempty] at hs
    have hremove : Sorted s (s._rt_timer_remove t) := remove_sorted
    by_cases hagain : s.startsAgain t = true
    · let s1 := (s._rt_timer_remove t).setTimer t fun timer => { timer with activated := false }
      have hclear : Sorted (s._rt_timer_remove t) s1 := setTimer_sorted fun _ => rfl
      have hstart : s1.rt_timer_start t = some s' := by simpa only [hagain, if_true] using hs
      exact (hremove.trans hclear).trans (rt_timer_start_sorted hstart)
    · simp only [hagain, Bool.false_eq_true, if_false] at hs
      obtain rfl := Option.some.inj hs
      exact hremove

/-- A step that leaves the thread awake. -/
theorem SoftInv.awake (h : SoftInv c) (hs : Sorted c.store c'.store)
    (hown : c'.thread_timer = c.thread_timer) (hawake : c'.suspended = false)
    (hstatus : c'.soft_timer_status = .BUSY → ∃ t, c'.pc = .calling t) : SoftInv c' where
  own := by
    rw [hown]
    exact (hs.flags _).trans h.own
  soft u hu := by
    apply (hs.flags u).trans
    rcases hs.soft u hu with hold | hsoft
    · exact h.soft u hold
    · exact hsoft
  status hb := ⟨hawake, hstatus hb⟩
  sleeps hs := by
    rw [hawake] at hs
    cases hs

theorem SoftInv.checkHead (h : SoftInv c) (hawake : c.suspended = false)
    (hidle : c.soft_timer_status = .IDLE) : SoftInv c.checkHead := by
  have htop : SoftInv { c with pc := .top } := by
    refine h.awake (Sorted.refl _) rfl hawake ?_
    intro hb
    rw [show c.soft_timer_status = .BUSY from hb] at hidle
    cases hidle
  rw [SoftTimers.checkHead]
  split
  · exact htop
  · split
    · exact h.awake takeDue_sorted rfl hawake fun _ => ⟨_, rfl⟩
    · exact htop

/-- The thread goes to sleep. -/
theorem SoftInv.asleep (h : SoftInv c) (hs : Sorted c.store c'.store)
    (hown : c'.thread_timer = c.thread_timer) (hidle : c'.soft_timer_status = .IDLE)
    (hsleeps : 0 < c'.starting ∨ 0 < c'.resuming ∨ c'.store.rt_soft_timer_list = [] ∨
      c'.DelayedInTime) : SoftInv c' where
  own := by
    rw [hown]
    exact (hs.flags _).trans h.own
  soft u hu := by
    apply (hs.flags u).trans
    rcases hs.soft u hu with hold | hsoft
    · exact h.soft u hold
    · exact hsoft
  status hb := by
    rw [hidle] at hb
    cases hb
  sleeps _ := hsleeps

theorem suspendSelf_soft_list (c : SoftTimers) :
    ∀ u ∈ c.suspendSelf.store.rt_soft_timer_list, u ∈ c.store.rt_soft_timer_list := by
  intro u hu
  rw [suspendSelf, Timers.rt_timer_stop] at hu
  split at hu
  · exact hu
  · exact (List.mem_filter.mp hu).1

theorem sub32_add32 {next cur x : Nat} : sub32 x (add32 cur (sub32 next cur)) = sub32 x next := by
  have hadd : add32 cur (sub32 next cur) % 2 ^ 32 = next % 2 ^ 32 := by
    simp only [add32, sub32]
    omega
  show (x + (2 ^ 32 - add32 cur (sub32 next cur) % 2 ^ 32)) % 2 ^ 32 = _
  rw [hadd]
  rfl

/-- The own timer of the thread after the critical section of `rt_thread_sleep`. -/
theorem sleep_timer {tick : Nat} (h : SoftInv c) (hs : c.sleep tick = some c') :
    Sorted c.store c'.store ∧ c'.thread_timer = c.thread_timer ∧
      c'.soft_timer_status = c.soft_timer_status ∧ c'.suspended = true ∧
      c'.starting = c.starting ∧ c'.resuming = c.resuming ∧
      (∀ u ∈ c'.store.rt_soft_timer_list, u ∈ c.store.rt_soft_timer_list ∧
        (c'.timer u).timeout_tick = (c.timer u).timeout_tick) ∧
      (c'.timer c.thread_timer).activated = true ∧ c.thread_timer ∈ c'.store.rt_timer_list ∧
      (c'.timer c.thread_timer).timeout_tick = add32 c.store.rt_tick tick := by
  obtain ⟨store, hstart, hs⟩ := Option.bind_eq_some_iff.mp hs
  obtain rfl := Option.some.inj hs
  let s1 := c.suspendSelf.store
  let s2 := s1.rt_timer_control_set_time c.thread_timer tick
  have h1 : Sorted c.store s1 := rt_timer_stop_sorted
  have h2 : Sorted s1 s2 := setTimer_sorted fun _ => rfl
  have hstarts : Timers.Starts s2 store c.thread_timer := Timers.rt_timer_start_starts hstart
  have hflag : (s2.timers c.thread_timer).soft = false := ((h1.trans h2).flags _).trans h.own
  have htick : s2.rt_tick = c.store.rt_tick := by
    show (c.store.rt_timer_stop c.thread_timer).1.rt_tick = _
    rw [Timers.rt_timer_stop]
    split <;> rfl
  have hinit : (s2.timers c.thread_timer).init_tick = tick := by
    simp only [s2, Timers.rt_timer_control_set_time, Timers.setTimer_self]
  refine ⟨(h1.trans h2).trans (rt_timer_start_sorted hstart), rfl, rfl, rfl, rfl, rfl, ?_, ?_, ?_, ?_⟩
  · intro u hu
    rcases Timers.rt_timer_start_soft_list hstart hu with ⟨-, hsoft⟩ | hold
    · have hboth : false = true := hflag.symm.trans hsoft
      cases hboth
    · have hmem : u ∈ c.store.rt_soft_timer_list := suspendSelf_soft_list c u hold
      have hne : u ≠ c.thread_timer := (h.ne_own (h.soft u hmem)).symm
      refine ⟨hmem, ?_⟩
      show (store.timers u).timeout_tick = (c.store.timers u).timeout_tick
      rw [hstarts.other u hne]
      show ((s1.rt_timer_control_set_time c.thread_timer tick).timers u).timeout_tick = _
      rw [Timers.rt_timer_control_set_time, Timers.setTimer_of_ne _ _ hne]
      show ((c.store.rt_timer_stop c.thread_timer).1.timers u).timeout_tick = _
      rw [Timers.rt_timer_stop]
      split
      · rfl
      · rw [stopChecked_timers, if_neg hne]
  · show (store.timers c.thread_timer).activated = true
    rw [hstarts.self]
  · exact Timers.rt_timer_start_hard hstart hflag
  · show (store.timers c.thread_timer).timeout_tick = _
    rw [hstarts.self]
    show add32 s2.rt_tick (s2.timers c.thread_timer).init_tick = _
    rw [htick, hinit]

theorem SoftInv.loop (h : SoftInv c) (hk : c.StillHolds .loop) (hs : c.loop = some c') :
    SoftInv c' := by
  rw [SoftTimers.loop] at hs
  by_cases hsusp : c.suspended = true
  · rw [if_pos hsusp] at hs
    cases hs
  · rw [if_neg hsusp] at hs
    have hawake : c.suspended = false := by simpa using hsusp
    have hidle : (∀ t, c.pc ≠ .calling t) → c.soft_timer_status = .IDLE := by
      intro hpc
      cases hstatus : c.soft_timer_status with
      | IDLE => rfl
      | BUSY =>
        obtain ⟨t, ht⟩ := (h.status hstatus).2
        exact absurd ht (hpc t)
    have hstep : ∀ pc : SoftPc, (∀ t, c.pc ≠ .calling t) → SoftInv { c with pc := pc } := by
      intro pc hpc
      refine h.awake (Sorted.refl _) rfl hawake ?_
      intro hb
      rw [show c.soft_timer_status = .BUSY from hb] at hidle
      cases hidle hpc
    cases hpc : c.pc with
    | top =>
      simp only [hpc] at hs
      obtain rfl := Option.some.inj hs
      exact hstep _ (by simp [hpc])
    | got next_timeout =>
      simp only [hpc] at hs
      by_cases hmax : next_timeout = RT_TICK_MAX
      · rw [if_pos hmax] at hs
        obtain rfl := Option.some.inj hs
        refine h.asleep rt_timer_stop_sorted rfl (hidle (by simp [hpc])) ?_
        simp only [StillHolds, ReadHolds, hpc] at hk
        rcases hk with hstart | hres | hempty | hne
        · exact Or.inl hstart
        · exact Or.inr (Or.inl hres)
        · refine Or.inr (Or.inr (Or.inl ?_))
          apply List.eq_nil_iff_forall_not_mem.mpr
          intro u hu
          have hmem := suspendSelf_soft_list c u hu
          rw [hempty] at hmem
          cases hmem
        · exact absurd hmax hne
      · rw [if_neg hmax] at hs
        obtain rfl := Option.some.inj hs
        exact hstep _ (by simp [hpc])
    | ticked next_timeout current_tick =>
      simp only [hpc] at hs
      by_cases hahead : sub32 next_timeout current_tick < RT_TICK_MAX / 2
      · rw [if_pos hahead] at hs
        obtain ⟨c1, hsleep, rfl⟩ := Option.map_eq_some_iff.mp hs
        obtain ⟨hsort, hown, hst, -, hstarting, hresuming, hsoft, hact, hmem, htimeout⟩ :=
          sleep_timer h hsleep
        refine h.asleep hsort hown (hst.trans (hidle (by simp [hpc]))) ?_
        simp only [StillHolds, ReadHolds, hpc] at hk
        rcases hk with hstart | hres | hempty | hhold
        · exact Or.inl (hstarting.symm ▸ hstart)
        · exact Or.inr (Or.inl (hresuming.symm ▸ hres))
        · refine Or.inr (Or.inr (Or.inl ?_))
          apply List.eq_nil_iff_forall_not_mem.mpr
          intro u hu
          have hmem := (hsoft u hu).1
          rw [hempty] at hmem
          cases hmem
        · obtain ⟨htick, hall⟩ := hhold hahead
          refine Or.inr (Or.inr (Or.inr ?_))
          show c1.DelayedInTime
          rw [DelayedInTime, hown]
          refine ⟨hact, hmem, fun u hu => ?_⟩
          obtain ⟨hold, hsame⟩ := hsoft u hu
          rw [htimeout, hsame, htick, sub32_add32]
          exact hall u hold
      · rw [if_neg hahead] at hs
        obtain rfl := Option.some.inj hs
        exact hstep _ (by simp [hpc])
    | check =>
      simp only [hpc] at hs
      obtain rfl := Option.some.inj hs
      exact h.checkHead hawake (hidle (by simp [hpc]))
    | calling t =>
      simp only [hpc] at hs
      obtain ⟨store, hafter, hs⟩ := Option.bind_eq_some_iff.mp hs
      obtain rfl := Option.some.inj hs
      have h1 : SoftInv { c with store := store, soft_timer_status := .IDLE } :=
        h.awake (afterTimeout_sorted hafter) rfl hawake (by simp)
      exact h1.checkHead hawake rfl

/-! ### The other threads and the tick -/

theorem SoftInv.step {l : SoftStep} (h : SoftInv c) (hk : c.StillHolds l) (hs : c.step l = some c') :
    SoftInv c' := by
  cases l with
  | loop => exact h.loop hk hs
  | start t =>
    simp only [SoftTimers.step, start] at hs
    split at hs
    · obtain ⟨store, hstart, hs⟩ := Option.bind_eq_some_iff.mp hs
      obtain rfl := Option.some.inj hs
      have hsort := rt_timer_start_sorted hstart
      refine ⟨(hsort.flags _).trans h.own, fun u hu => ?_, h.status, fun _ => Or.inl (Nat.succ_pos _)⟩
      apply (hsort.flags u).trans
      rcases hsort.soft u hu with hold | hsoft
      · exact h.soft u hold
      · exact hsoft
    · cases hs
  | look =>
    simp only [SoftTimers.step, look] at hs
    split at hs
    · obtain rfl := Option.some.inj hs
      refine ⟨h.own, h.soft, h.status, fun hsusp => ?_⟩
      -- a suspended thread is found idle, and will be resumed
      have hidle : c.soft_timer_status = .IDLE := by
        cases hstatus : c.soft_timer_status with
        | IDLE => rfl
        | BUSY =>
          have hawake := (h.status hstatus).1
          rw [show c.suspended = true from hsusp] at hawake
          cases hawake
      refine Or.inr (Or.inl ?_)
      show 0 < c.resuming + if c.soft_timer_status = .IDLE ∧ c.suspended = true then 1 else 0
      rw [if_pos ⟨hidle, hsusp⟩]
      exact Nat.succ_pos _
    · cases hs
  | resume =>
    simp only [SoftTimers.step, resume] at hs
    split at hs
    · obtain rfl := Option.some.inj hs
      by_cases hsusp : c.suspended = true
      · have hstop : Sorted c.store (c.store.rt_timer_stop c.thread_timer).1 := rt_timer_stop_sorted
        apply h.awake
        · simpa only [rt_thread_resume, if_pos hsusp] using hstop
        · simp only [rt_thread_resume, if_pos hsusp]
        · simp only [rt_thread_resume, if_pos hsusp]
        · simp only [rt_thread_resume, if_pos hsusp]
          exact fun hb => (h.status hb).2
      · have hawake : c.suspended = false := by simpa using hsusp
        have hsame : c.rt_thread_resume = c := if_neg hsusp
        rw [hsame]
        exact h.awake (Sorted.refl c.store) rfl hawake fun hb => (h.status hb).2
    · cases hs
  | stop t =>
    simp only [SoftTimers.step, stop] at hs
    split at hs
    · obtain rfl := Option.some.inj hs
      exact h.spares (rt_timer_stop_spares (h.ne_own ‹_›))
    · cases hs
  | stopLate t =>
    simp only [SoftTimers.step, stopLate] at hs
    split at hs
    · obtain rfl := Option.some.inj hs
      exact h.spares (stopChecked_spares (h.ne_own ‹_›))
    · cases hs
  | setTime t time =>
    simp only [SoftTimers.step, setTime] at hs
    split at hs
    · rename_i hsoft
      obtain rfl := Option.some.inj hs
      have hne := h.ne_own hsoft
      apply h.spares
      have hsort : Sorted c.store (c.store.rt_timer_control_set_time t time) :=
        setTimer_sorted fun _ => rfl
      refine ⟨hsort.flags, Timers.setTimer_of_ne _ _ hne, fun hmem => hmem, fun u hu => ⟨hu, ?_⟩⟩
      by_cases hut : u = t
      · subst hut
        rw [Timers.rt_timer_control_set_time, Timers.setTimer_self]
      · rw [Timers.rt_timer_control_set_time, Timers.setTimer_of_ne _ _ hut]
    · cases hs
  | startInside t =>
    simp only [SoftTimers.step, startInside] at hs
    cases hpc : c.pc with
    | calling t' =>
      simp only [hpc] at hs
      split at hs
      · rename_i hcall
        obtain ⟨store, hstart, rfl⟩ := Option.map_eq_some_iff.mp hs
        exact h.awake (rt_timer_start_sorted hstart) rfl hcall.2 fun _ => ⟨t', rfl⟩
      · cases hs
    | top => simp only [hpc] at hs; cases hs
    | got next_timeout => simp only [hpc] at hs; cases hs
    | ticked next_timeout current_tick => simp only [hpc] at hs; cases hs
    | check => simp only [hpc] at hs; cases hs
  | tick =>
    obtain rfl := Option.some.inj hs
    exact h.spares ⟨fun _ => rfl, rfl, fun hmem => hmem, fun _ hu => ⟨hu, rfl⟩⟩
  | expire =>
    simp only [SoftTimers.step, expire] at hs
    split at hs
    · obtain rfl := Option.some.inj hs
      exact h.awake stopChecked_sorted rfl rfl fun hb => (h.status hb).2
    · cases hs

end SoftTimers

open SoftTimers

/-- In every run in which what the timer thread has read still holds when it goes to sleep, it does
not sleep past a soft timer. -/
theorem soft_timer_sleeps_in_time {c : SoftTimers}
    (hr : (softTimerMachine.restrict StillHolds).Reachable c) : c.SleepsInTime := by
  have h : SoftInv c := by
    apply hr.invariant
    · exact fun c h => h.softInv
    · exact fun c l c' _ h hs => h.step hs.1 hs.2
  intro hsusp hne hstarting hresuming
  rcases h.sleeps hsusp with hstart | hres | hempty | hdelay
  · omega
  · omega
  · exact absurd hempty hne
  · exact hdelay

/-- No soft timer is started; timer 0 is the one of the thread. -/
def noSoftTimers : SoftTimers where
  store :=
    { rt_tick := 0
      timers := fun t =>
        { activated := false, periodic := false, soft := decide (t ≠ 0), timeout_tick := 0
          init_tick := 10 }
      rt_timer_list := [], rt_soft_timer_list := [], list := [] }
  thread_timer := 0
  soft_timer_status := .IDLE
  suspended := false
  pc := .top
  starting := 0
  resuming := 0

theorem noSoftTimers_fresh : noSoftTimers.Fresh :=
  ⟨⟨rfl, rfl, rfl⟩, rfl, rfl, rfl, rfl, ⟨rfl, rfl⟩⟩

/-- The steps at which what the thread has read still holds. -/
def stepHolds (c : SoftTimers) (l : SoftStep) : Option SoftTimers :=
  if c.StillHolds l then c.step l else none

/-- The thread suspends itself, is resumed by a start, and sleeps until the timer. -/
def startAfterSuspend : List SoftStep :=
  [.loop, .loop, .tick, .start 1, .look, .resume, .loop, .loop, .loop, .loop, .tick]

theorem soft_timer_sleeps_in_time_started : ∃ c,
    Machine.runs stepHolds noSoftTimers startAfterSuspend = some c ∧ c.suspended = true ∧
      c.store.rt_soft_timer_list = [1] ∧ (c.timer 0).timeout_tick = 11 ∧ c.SleepsInTime := by
  have hrun : ∃ c, Machine.runs stepHolds noSoftTimers startAfterSuspend = some c ∧
      c.suspended = true ∧ c.store.rt_soft_timer_list = [1] ∧ (c.timer 0).timeout_tick = 11 := by
    decide +kernel
  obtain ⟨c, hc, hsusp, hlist, htimeout⟩ := hrun
  refine ⟨c, hc, hsusp, hlist, htimeout, soft_timer_sleeps_in_time ?_⟩
  refine (Machine.Reachable.start noSoftTimers_fresh).runs (fun c l c' hs => ?_) hc
  rw [stepHolds] at hs
  split at hs
  · exact ⟨‹_›, hs⟩
  · cases hs

/-- A timer is started after the thread has read that there is none, and before it suspends itself. -/
def startBeforeSuspend : List SoftStep := [.loop, .start 1, .look, .loop]

theorem soft_timer_overslept : ∃ c, softTimerMachine.Reachable c ∧ c.suspended = true ∧
    c.store.rt_soft_timer_list = [1] ∧ c.starting = 0 ∧ c.resuming = 0 ∧
      (c.timer c.thread_timer).activated = false ∧ ¬c.SleepsInTime := by
  have hrun : ∃ c, Machine.runs SoftTimers.step noSoftTimers startBeforeSuspend = some c ∧
      c.suspended = true ∧ c.store.rt_soft_timer_list = [1] ∧ c.starting = 0 ∧ c.resuming = 0 ∧
      (c.timer c.thread_timer).activated = false := by
    decide +kernel
  obtain ⟨c, hc, hsusp, hlist, hstarting, hresuming, hact⟩ := hrun
  have hreach : softTimerMachine.Reachable c :=
    (Machine.Reachable.start noSoftTimers_fresh).runs (fun _ _ _ hs => hs) hc
  refine ⟨c, hreach, hsusp, hlist, hstarting, hresuming, hact, fun h => ?_⟩
  have hdelay := (h hsusp (by simp [hlist]) hstarting hresuming).1
  rw [hact] at hdelay
  cases hdelay

end Ab32Vg1.Kernel
