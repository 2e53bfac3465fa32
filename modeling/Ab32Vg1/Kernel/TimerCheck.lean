import Ab32Vg1.Kernel.TimerRun

/-! The loop of `rt_timer_check` when the timeout functions change no timers: when it comes to an end.
The periods are all those that `rt_timer_start` accepts. -/

namespace Ab32Vg1.Kernel

open ProofKit

namespace Timers

/-- `RT_TIMER_CTRL_SET_ONESHOT` and `RT_TIMER_CTRL_SET_PERIODIC` -/
def rt_timer_control_set_periodic (s : Timers) (t : TimerId) (periodic : Bool) : Timers :=
  s.setTimer t fun timer => { timer with periodic := periodic }

/-- The loop of `rt_timer_check`, with at most so many turns, when the timeout functions leave the timers
alone and the tick stands still. -/
def rt_timer_check (s : Timers) (current_tick : Nat) : Nat → Option Timers
  | 0 => none
  | turns + 1 =>
    match s.nextDue current_tick with
    | none => some s
    | some t => ((s.takeDue t).afterTimeout t).bind fun s => s.rt_timer_check s.rt_tick turns

/-- The loop comes to its end. -/
def CheckEnds (s : Timers) : Prop := ∃ turns s', s.rt_timer_check s.rt_tick turns = some s'

def due (s : Timers) (t : TimerId) : Bool := tickReached s.rt_tick (s.timers t).timeout_tick

end Timers

/-! ### The machine -/

/-- The timers, with the number of ticks since the first, which does not wrap. -/
structure CheckSystem where
  store : Timers
  now : Nat
  phase : TimerPhase

/-- The timeout functions are steps between `turn` and `returns`. -/
inductive CheckStep where
  | start (t : TimerId)
  | stop (t : TimerId)
  | stopLate (t : TimerId)
  | setTime (t : TimerId) (time : Nat)
  | setPeriodic (t : TimerId) (periodic : Bool)
  | tick
  | check
  | turn
  | returns
  deriving DecidableEq, Repr

namespace CheckSystem

def setTime (c : CheckSystem) (t : TimerId) (time : Nat) : Option CheckSystem :=
  if time < RT_TICK_MAX / 2 then some { c with store := c.store.rt_timer_control_set_time t time }
  else none

def tick (c : CheckSystem) : Option CheckSystem :=
  if c.phase = .waiting then
    some
      { store := { c.store with rt_tick := add32 c.store.rt_tick 1 }, now := c.now + 1,
        phase := .ticked }
  else none

def turn (c : CheckSystem) : Option CheckSystem :=
  match c.phase with
  | .checking current_tick =>
    match c.store.nextDue current_tick with
    | some t => some { c with store := c.store.takeDue t, phase := .calling t }
    | none => some { c with phase := .waiting }
  | _ => none

def returns (c : CheckSystem) : Option CheckSystem :=
  match c.phase with
  | .calling t => (c.store.afterTimeout t).map fun store =>
    { c with store := store, phase := .checking store.rt_tick }
  | _ => none

def step (c : CheckSystem) : CheckStep → Option CheckSystem
  | .start t => (c.store.rt_timer_start t).map fun store => { c with store := store }
  | .stop t => some { c with store := (c.store.rt_timer_stop t).1 }
  | .stopLate t => some { c with store := c.store.stopChecked t }
  | .setTime t time => c.setTime t time
  | .setPeriodic t periodic =>
    some { c with store := c.store.rt_timer_control_set_periodic t periodic }
  | .tick => c.tick
  | .check => if c.phase = .ticked then some { c with phase := .checking c.store.rt_tick } else none
  | .turn => c.turn
  | .returns => c.returns

/-- Timers that were initialised, at any tick. -/
structure Fresh (c : CheckSystem) : Prop where
  rt_tick : c.store.rt_tick = c.now % 2 ^ 32
  init_tick : ∀ t, (c.store.timers t).init_tick < RT_TICK_MAX / 2
  activated : ∀ t, (c.store.timers t).activated = false
  lists : c.store.rt_timer_list = [] ∧ c.store.rt_soft_timer_list = [] ∧ c.store.list = []
  phase : c.phase = .waiting

end CheckSystem

def checkMachine : Machine CheckSystem CheckStep where
  start := CheckSystem.Fresh
  step c l c' := c.step l = some c'

/-! ### The list -/

section

variable {s s' s1 : Timers} {t u : TimerId} {now late : Nat} {at_tick : TimerId → Nat}

/-- A timer in the list is armed for a tick that came not long ago or comes in the near future. -/
structure Scheduled (s : Timers) (now late : Nat) (at_tick : TimerId → Nat) (t : TimerId) : Prop where
  soft : (s.timers t).soft = false
  activated : (s.timers t).activated = true
  timeout_tick : (s.timers t).timeout_tick = at_tick t % 2 ^ 32
  past : now ≤ at_tick t + late
  future : at_tick t ≤ now + 2147483646

/-- The list of the active hard timers, in the order of the ticks that they are armed for. -/
structure HardTimers (s : Timers) (now late : Nat) (at_tick : TimerId → Nat) : Prop where
  rt_tick : s.rt_tick = now % 2 ^ 32
  init_tick : ∀ t, (s.timers t).init_tick < RT_TICK_MAX / 2
  nodup : s.rt_timer_list.Nodup
  scheduled : ∀ t ∈ s.rt_timer_list, Scheduled s now late at_tick t
  sorted : s.rt_timer_list.Pairwise fun t u => at_tick t ≤ at_tick u

theorem Scheduled.due_iff (h : Scheduled s now late at_tick t) (hrt : s.rt_tick = now % 2 ^ 32)
    (hlate : late ≤ 1) : s.due t = true ↔ at_tick t ≤ now := by
  have hpast := h.past
  have hfuture := h.future
  unfold Timers.due tickReached sub32
  rw [hrt, h.timeout_tick, half_tick, decide_eq_true_iff]
  omega

theorem Scheduled.congr (h : Scheduled s now late at_tick t) (ht : s'.timers t = s.timers t) :
    Scheduled s' now late at_tick t := by
  obtain ⟨h1, h2, h3, h4, h5⟩ := h
  exact ⟨by rw [ht]; exact h1, by rw [ht]; exact h2, by rw [ht]; exact h3, h4, h5⟩

/-- Some timers leave the list, and those that stay are as they were. -/
theorem HardTimers.sublist (h : HardTimers s now late at_tick) (hrt : s'.rt_tick = s.rt_tick)
    (hinit : ∀ u, (s'.timers u).init_tick < RT_TICK_MAX / 2)
    (hsub : s'.rt_timer_list.Sublist s.rt_timer_list)
    (hkeep : ∀ u ∈ s'.rt_timer_list, Scheduled s now late at_tick u → Scheduled s' now late at_tick u) :
    HardTimers s' now late at_tick :=
  ⟨hrt.trans h.rt_tick, hinit, h.nodup.sublist hsub,
    fun u hu => hkeep u hu (h.scheduled u (hsub.subset hu)), h.sorted.sublist hsub⟩

/-- The search for the place of a timer that is started stops before the first later one. -/
theorem stopsAt_late {d e : Nat} {timer other : Timer} (ht : timer.timeout_tick = d % 2 ^ 32)
    (hu : other.timeout_tick = e % 2 ^ 32) (hd : now ≤ d) (hd' : d ≤ now + 2147483646)
    (he : now ≤ e + 1) (he' : e ≤ now + 2147483646) : Timers.stopsAt timer other = true ↔ d < e := by
  unfold Timers.stopsAt sub32
  rw [ht, hu, half_tick]
  split
  · next h =>
    simp only [Bool.false_eq_true, false_iff]
    omega
  · next h =>
    rw [decide_eq_true_iff]
    omega

/-- A timer is started. -/
theorem HardTimers.started (h : HardTimers s now late at_tick) (hlate : late ≤ 1)
    (hs : Timers.Starts s s' t) :
    HardTimers s' now late (Function.update at_tick t (now + (s.timers t).init_tick)) := by
  have hinit : ∀ u, (s'.timers u).init_tick < RT_TICK_MAX / 2 := fun u => by
    rw [(hs.fixed u).init_tick]
    exact h.init_tick u
  have hperiod := h.init_tick t
  rw [half_tick] at hperiod
  let at_tick' := Function.update at_tick t (now + (s.timers t).init_tick)
  have hself : at_tick' t = now + (s.timers t).init_tick := Function.update_self ..
  have hother : ∀ u, u ≠ t → at_tick' u = at_tick u := fun u hu => Function.update_of_ne hu ..
  have hmem : ∀ u ∈ s.rt_timer_list.filter (· ≠ t), u ∈ s.rt_timer_list ∧ u ≠ t :=
    fun u hu => TimerSystem.mem_filter_ne.mp hu
  have hkept : ∀ u ∈ s.rt_timer_list.filter (· ≠ t), Scheduled s' now late at_tick' u := by
    intro u hu
    obtain ⟨hu, hut⟩ := hmem u hu
    obtain ⟨h1, h2, h3, h4, h5⟩ := (h.scheduled u hu).congr (hs.other u hut)
    rw [← hother u hut] at h3 h4 h5
    exact ⟨h1, h2, h3, h4, h5⟩
  have hsorted : (s.rt_timer_list.filter (· ≠ t)).Pairwise fun u v => at_tick' u ≤ at_tick' v := by
    refine (h.sorted.sublist List.filter_sublist).imp_of_mem fun hu hv hle => ?_
    rw [hother _ (hmem _ hu).2, hother _ (hmem _ hv).2]
    exact hle
  cases hsoft : (s.timers t).soft with
  | true =>
    have hlist := hs.soft hsoft
    refine ⟨hs.rt_tick.trans h.rt_tick, hinit, ?_, fun u hu => ?_, ?_⟩
    · rw [hlist]
      exact h.nodup.filter _
    · rw [hlist] at hu
      exact hkept u hu
    · rw [hlist]
      exact hsorted
  | false =>
    have hlist := hs.hard hsoft
    have htick : (s'.timers t).timeout_tick = at_tick' t % 2 ^ 32 := by
      rw [hs.self, hself, h.rt_tick]
      exact add32_mod _ _
    have hstart : Scheduled s' now late at_tick' t := by
      refine ⟨?_, ?_, htick, by omega, by omega⟩
      · rw [hs.self]
        exact hsoft
      · rw [hs.self]
    -- the search stops at the first timer that has to fire later
    have hstop : ∀ u ∈ s.rt_timer_list.filter (· ≠ t),
        Timers.stopsAt (s'.timers t) (s'.timers u) = true ↔ at_tick' t < at_tick' u := by
      intro u hu
      have hk := hkept u hu
      have hpast := hk.past
      exact stopsAt_late htick hk.timeout_tick (by omega) (by omega) (by omega) hk.future
    refine ⟨hs.rt_tick.trans h.rt_tick, hinit, ?_, fun u hu => ?_, ?_⟩
    · rw [hlist, insertStable_perm.nodup_iff]
      exact List.nodup_cons.mpr ⟨fun hm => (hmem t hm).2 rfl, h.nodup.filter _⟩
    · rw [hlist] at hu
      rcases mem_insertStable.mp hu with rfl | hu
      · exact hstart
      · exact hkept u hu
    · rw [hlist]
      refine insertStable_pairwise hsorted (fun u hu hl => ?_) (fun u hu v hv hl hle => ?_)
        (fun u hu hl => ?_)
      · exact Nat.le_of_lt ((hstop u hu).mp hl)
      · exact Nat.le_of_lt (Nat.lt_of_lt_of_le ((hstop u hu).mp hl) hle)
      · refine Nat.le_of_not_lt fun hlt => ?_
        have := (hstop u hu).mpr hlt
        rw [hl] at this
        cases this

/-! ### One turn of the loop -/

/-- The loop takes the first timer of the list. -/
theorem nextDue_eq_some (hs : s.nextDue s.rt_tick = some t) :
    ∃ rest, s.rt_timer_list = t :: rest ∧ s.due t = true := by
  unfold Timers.nextDue at hs
  cases hlist : s.rt_timer_list with
  | nil => simp [hlist] at hs
  | cons u rest =>
    simp only [hlist] at hs
    split at hs
    · next hdue =>
      obtain rfl := Option.some.inj hs
      exact ⟨rest, rfl, hdue⟩
    · cases hs

theorem nextDue_eq_none (hs : s.nextDue s.rt_tick = none) {rest : List TimerId}
    (hlist : s.rt_timer_list = t :: rest) : s.due t = false := by
  unfold Timers.nextDue at hs
  simp only [hlist] at hs
  split at hs
  · cases hs
  · next hdue => simpa [Timers.due] using hdue

/-- The loop ends only when no timer is due. -/
theorem HardTimers.none_due (h : HardTimers s now late at_tick) (hlate : late ≤ 1)
    (hs : s.nextDue s.rt_tick = none) (hu : u ∈ s.rt_timer_list) : now < at_tick u := by
  have hiff := (h.scheduled u hu).due_iff h.rt_tick hlate
  cases hlist : s.rt_timer_list with
  | nil =>
    rw [hlist] at hu
    cases hu
  | cons t rest =>
    have ht : t ∈ s.rt_timer_list := by
      rw [hlist]
      exact List.mem_cons_self
    have hlater : now < at_tick t := by
      by_contra hle
      have hdue := ((h.scheduled t ht).due_iff h.rt_tick hlate).mpr (by omega)
      rw [nextDue_eq_none hs hlist] at hdue
      cases hdue
    have hsorted := h.sorted
    rw [hlist] at hu hsorted
    rcases List.mem_cons.mp hu with rfl | hu
    · exact hlater
    · exact Nat.lt_of_lt_of_le hlater ((List.pairwise_cons.mp hsorted).1 u hu)

/-- A timer that is taken out of the list. -/
structure Taken (s s1 : Timers) (t : TimerId) : Prop where
  rt_tick : s1.rt_tick = s.rt_tick
  list : s1.rt_timer_list = s.rt_timer_list.filter (· ≠ t)
  calling : s1.list = t :: s.list.filter (· ≠ t)
  other : ∀ u, u ≠ t → s1.timers u = s.timers u
  self : s1.timers t =
    { s.timers t with activated := (s.timers t).periodic && (s.timers t).activated }

theorem takeDue_taken (s : Timers) (t : TimerId) : Taken s (s.takeDue t) t := by
  unfold Timers.takeDue Timers._rt_timer_remove
  dsimp only
  by_cases hper : (s.timers t).periodic = true
  · rw [if_pos hper]
    refine ⟨rfl, rfl, rfl, fun _ _ => rfl, ?_⟩
    rw [hper, Bool.true_and]
  · rw [if_neg hper]
    refine ⟨rfl, rfl, rfl, fun u hu => Function.update_of_ne hu .., ?_⟩
    simp [Timers.setTimer, hper]

theorem Taken.init_tick (h : Taken s s1 t) (u : TimerId) :
    (s1.timers u).init_tick = (s.timers u).init_tick := by
  by_cases hut : u = t
  · subst hut
    rw [h.self]
  · rw [h.other u hut]

theorem HardTimers.taken (h : HardTimers s now late at_tick) (ht : Taken s s1 t) :
    HardTimers s1 now late at_tick := by
  refine h.sublist ht.rt_tick (fun u => by rw [ht.init_tick]; exact h.init_tick u) ?_ fun u hu hk => ?_
  · rw [ht.list]
    exact List.filter_sublist
  · rw [ht.list] at hu
    exact hk.congr (ht.other u (TimerSystem.mem_filter_ne.mp hu).2)

/-- After the timeout function: it stopped or started the timer; or the timer is done; or it starts
again. -/
theorem afterTimeout_cases (hs : s.afterTimeout t = some s1) :
    (s.list = [] ∧ s1 = s) ∨ (s.startsAgain t = false ∧ s1 = s._rt_timer_remove t) ∨
      (s.startsAgain t = true ∧ Timers.Starts s s1 t) := by
  unfold Timers.afterTimeout at hs
  by_cases hnil : s.list = []
  · rw [if_pos hnil] at hs
    exact Or.inl ⟨hnil, (Option.some.inj hs).symm⟩
  · rw [if_neg hnil] at hs
    cases hagain : s.startsAgain t with
    | true =>
      simp only [hagain, if_true] at hs
      exact Or.inr (Or.inr ⟨rfl, TimerSystem.starts_again (Timers.rt_timer_start_starts hs)⟩)
    | false =>
      simp only [hagain, Bool.false_eq_true, if_false] at hs
      exact Or.inr (Or.inl ⟨rfl, (Option.some.inj hs).symm⟩)

theorem afterTimeout_returns (hinit : (s.timers t).init_tick < RT_TICK_MAX / 2) :
    ∃ s1, s.afterTimeout t = some s1 := by
  unfold Timers.afterTimeout
  split
  · exact ⟨s, rfl⟩
  · dsimp only
    split
    · exact Timers.rt_timer_start_returns (by rw [Timers.setTimer_self]; exact hinit)
    · exact ⟨_, rfl⟩

theorem HardTimers.removed (h : HardTimers s now late at_tick) (t : TimerId) :
    HardTimers (s._rt_timer_remove t) now late at_tick :=
  h.sublist rfl h.init_tick List.filter_sublist fun _ _ hk => hk.congr rfl

theorem HardTimers.afterTimeout (h : HardTimers s now late at_tick) (hlate : late ≤ 1)
    (hs : s.afterTimeout t = some s1) : ∃ at_tick', HardTimers s1 now late at_tick' := by
  rcases afterTimeout_cases hs with ⟨-, rfl⟩ | ⟨-, rfl⟩ | ⟨-, hst⟩
  · exact ⟨at_tick, h⟩
  · exact ⟨at_tick, h.removed t⟩
  · exact ⟨_, h.started hlate hst⟩

/-- A whole turn whose timeout function changes no timers: the other timers stay, and a periodic one is
in the list again, due only when its period is 0. -/
structure Turned (s s1 : Timers) (t : TimerId) : Prop where
  list : s1.list = []
  mem : ∀ u, u ≠ t → (u ∈ s1.rt_timer_list ↔ u ∈ s.rt_timer_list)
  other : ∀ u, u ≠ t → s1.due u = s.due u
  fixed : ∀ u, Timers.Fixed (s.timers u) (s1.timers u)
  periodic : (s.timers t).periodic = true →
    t ∈ s1.rt_timer_list ∧ (s1.due t = true ↔ (s.timers t).init_tick = 0)
  oneShot : (s.timers t).periodic = false → t ∉ s1.rt_timer_list

theorem HardTimers.turned (h : HardTimers s now late at_tick) (hlate : late ≤ 1) (hnil : s.list = [])
    (hnext : s.nextDue s.rt_tick = some t) : ∃ s1, (s.takeDue t).afterTimeout t = some s1 ∧
      Turned s s1 t ∧ ∃ at_tick', HardTimers s1 now late at_tick' := by
  have htaken := takeDue_taken s t
  have h0 := h.taken htaken
  obtain ⟨s1, hs⟩ := afterTimeout_returns (t := t) (h0.init_tick t)
  refine ⟨s1, hs, ?_, h0.afterTimeout hlate hs⟩
  obtain ⟨rest, hlist, -⟩ := nextDue_eq_some hnext
  have ht : Scheduled s now late at_tick t := h.scheduled t (by rw [hlist]; exact List.mem_cons_self)
  have hcalling : (s.takeDue t).list = [t] := by rw [htaken.calling, hnil, List.filter_nil]
  have hagain : (s.takeDue t).startsAgain t = (s.timers t).periodic := by
    unfold Timers.startsAgain
    rw [hcalling, htaken.self]
    simp [ht.activated]
  have hmem : ∀ u, u ∈ (s.takeDue t).rt_timer_list ↔ u ∈ s.rt_timer_list ∧ u ≠ t := fun u => by
    rw [htaken.list]
    exact TimerSystem.mem_filter_ne
  have hfixed : ∀ u, Timers.Fixed (s.timers u) ((s.takeDue t).timers u) := by
    intro u
    by_cases hut : u = t
    · subst hut
      rw [htaken.self]
      exact ⟨rfl, rfl, rfl⟩
    · rw [htaken.other u hut]
      exact ⟨rfl, rfl, rfl⟩
  have hdue : ∀ u, u ≠ t → (s.takeDue t).due u = s.due u := fun u hut => by
    rw [Timers.due, htaken.rt_tick, htaken.other u hut]
    rfl
  rcases afterTimeout_cases hs with ⟨hnil', -⟩ | ⟨hno, rfl⟩ | ⟨hyes, hst⟩
  · rw [hcalling] at hnil'
    cases hnil'
  · rw [hagain] at hno
    refine ⟨?_, fun u hut => ?_, hdue, hfixed, fun hp => ?_, fun _ => ?_⟩
    · show (s.takeDue t).list.filter (· ≠ t) = []
      simp [hcalling]
    · show u ∈ (s.takeDue t).rt_timer_list.filter (· ≠ t) ↔ _
      rw [TimerSystem.mem_filter_ne, hmem]
      simp [hut]
    · rw [hno] at hp
      cases hp
    · show t ∉ (s.takeDue t).rt_timer_list.filter (· ≠ t)
      simp
  · rw [hagain] at hyes
    have hsoft : ((s.takeDue t).timers t).soft = false := (hfixed t).soft.trans ht.soft
    have hmem' : ∀ u, u ∈ s1.rt_timer_list ↔ u = t ∨ u ∈ (s.takeDue t).rt_timer_list ∧ u ≠ t := by
      intro u
      rw [hst.hard hsoft, mem_insertStable, TimerSystem.mem_filter_ne]
    refine ⟨?_, fun u hut => ?_, fun u hut => ?_, fun u => ?_, fun _ => ⟨(hmem' t).mpr (Or.inl rfl), ?_⟩,
      fun hp => ?_⟩
    · rw [hst.list, hcalling]
      simp
    · rw [hmem', hmem]
      simp [hut]
    · rw [← hdue u hut, Timers.due, hst.rt_tick, hst.other u hut]
      rfl
    · exact ⟨(hst.fixed u).periodic.trans (hfixed u).periodic, (hst.fixed u).soft.trans (hfixed u).soft,
        (hst.fixed u).init_tick.trans (hfixed u).init_tick⟩
    · have hinit := h.init_tick t
      rw [half_tick] at hinit
      rw [Timers.due, hst.rt_tick, hst.self, htaken.rt_tick, htaken.init_tick, h.rt_tick]
      rw [add32_mod]
      unfold tickReached sub32
      rw [half_tick, decide_eq_true_iff]
      dsimp only
      omega
    · rw [hyes] at hp
      cases hp

/-! ### The end of the loop -/

/-- The timers that the loop would call without end. -/
def Timers.Endless (s : Timers) (t : TimerId) : Prop :=
  t ∈ s.rt_timer_list ∧ s.due t = true ∧ (s.timers t).periodic = true ∧ (s.timers t).init_tick = 0

/-- Each turn leaves one timer less that is due. -/
theorem HardTimers.ends (h : HardTimers s now late at_tick) (hlate : late ≤ 1) (hnil : s.list = [])
    (hpos : ∀ t, ¬s.Endless t) : s.CheckEnds := by
  induction hcount : (s.rt_timer_list.filter s.due).length using Nat.strong_induction_on
    generalizing s at_tick with
  | _ count ih =>
    cases hnext : s.nextDue s.rt_tick with
    | none => exact ⟨1, s, by rw [Timers.rt_timer_check, hnext]⟩
    | some t =>
      obtain ⟨s1, hs, hturn, at_tick', h1⟩ := h.turned hlate hnil hnext
      obtain ⟨rest, hlist, hdue⟩ := nextDue_eq_some hnext
      have hnot : s1.due t = true → t ∉ s1.rt_timer_list := by
        intro hd hm
        cases hper : (s.timers t).periodic with
        | true =>
          have hzero := (hturn.periodic hper).2.mp hd
          exact hpos t ⟨by rw [hlist]; exact List.mem_cons_self, hdue, hper, hzero⟩
        | false => exact hturn.oneShot hper hm
      have hsub : s1.rt_timer_list.filter s1.due ⊆ rest.filter s.due := by
        intro u hu
        obtain ⟨hm, hd⟩ := List.mem_filter.mp hu
        have hut : u ≠ t := by
          rintro rfl
          exact hnot hd hm
        rw [hturn.mem u hut, hlist] at hm
        rw [hturn.other u hut] at hd
        exact List.mem_filter.mpr ⟨(List.mem_cons.mp hm).resolve_left hut, hd⟩
      have hle := (List.subperm_of_subset (h1.nodup.filter s1.due) hsub).length_le
      have hless : (s1.rt_timer_list.filter s1.due).length < count := by
        rw [← hcount, hlist, List.filter_cons_of_pos hdue, List.length_cons]
        omega
      have hpos1 : ∀ u, ¬s1.Endless u := by
        rintro u ⟨hm, hd, hper, hzero⟩
        have hut : u ≠ t := by
          rintro rfl
          exact hnot hd hm
        refine hpos u ⟨(hturn.mem u hut).mp hm, (hturn.other u hut).symm.trans hd, ?_, ?_⟩
        · rw [← (hturn.fixed u).periodic]
          exact hper
        · rw [← (hturn.fixed u).init_tick]
          exact hzero
      obtain ⟨turns, s', hend⟩ := ih _ hless h1 hturn.list hpos1 rfl
      refine ⟨turns + 1, s', ?_⟩
      rw [Timers.rt_timer_check, hnext]
      simp only [hs, Option.bind_some]
      exact hend

/-- A periodic timer of 0 ticks is due again whenever it was called. -/
theorem HardTimers.endless (h : HardTimers s now late at_tick) (hlate : late ≤ 1) (hnil : s.list = [])
    (hu : s.Endless u) (turns : Nat) : s.rt_timer_check s.rt_tick turns = none := by
  induction turns generalizing s at_tick with
  | zero => rfl
  | succ turns ih =>
    obtain ⟨hm, hdue, hper, hzero⟩ := hu
    cases hnext : s.nextDue s.rt_tick with
    | none =>
      have hlater := h.none_due hlate hnext hm
      have hle := ((h.scheduled u hm).due_iff h.rt_tick hlate).mp hdue
      omega
    | some t =>
      obtain ⟨s1, hs, hturn, at_tick', h1⟩ := h.turned hlate hnil hnext
      have hu1 : s1.Endless u := by
        refine ⟨?_, ?_, (hturn.fixed u).periodic.trans hper, (hturn.fixed u).init_tick.trans hzero⟩
        · by_cases hut : u = t
          · subst hut
            exact (hturn.periodic hper).1
          · exact (hturn.mem u hut).mpr hm
        · by_cases hut : u = t
          · subst hut
            exact (hturn.periodic hper).2.mpr hzero
          · exact (hturn.other u hut).trans hdue
      rw [Timers.rt_timer_check, hnext]
      simp only [hs, Option.bind_some]
      exact ih h1 hturn.list hu1

end

/-! ### Runs -/

/-- Timers are late only between a tick and the end of its check. -/
def TimerPhase.late : TimerPhase → Nat
  | .waiting => 0
  | _ => 1

theorem TimerPhase.late_le (phase : TimerPhase) : phase.late ≤ 1 := by
  cases phase with
  | waiting => exact Nat.zero_le 1
  | _ => exact Nat.le_refl 1

namespace CheckSystem

/-- The local list of the check has the timer whose timeout function runs, until it is started or
stopped. -/
def CallingOk (s : Timers) : TimerPhase → Prop
  | .calling t => s.list = [] ∨ s.list = [t]
  | .checking current_tick => s.list = [] ∧ current_tick = s.rt_tick
  | _ => s.list = []

structure CheckInv (c : CheckSystem) : Prop where
  hard : ∃ at_tick, HardTimers c.store c.now c.phase.late at_tick
  calling : CallingOk c.store c.phase

variable {c c' : CheckSystem} {s' : Timers} {t : TimerId}

theorem CallingOk.filter {phase : TimerPhase} {s : Timers} (h : CallingOk s phase)
    (hrt : s'.rt_tick = s.rt_tick) (hlist : s'.list = s.list.filter (· ≠ t)) : CallingOk s' phase := by
  cases phase with
  | calling u =>
    rcases h with h | h
    · exact Or.inl (by rw [hlist, h, List.filter_nil])
    · by_cases hut : u = t
      · exact Or.inl (by rw [hlist, h]; simp [hut])
      · exact Or.inr (by rw [hlist, h]; simp [hut])
  | checking current_tick => exact ⟨by rw [hlist, h.1, List.filter_nil], h.2.trans hrt.symm⟩
  | waiting =>
    show s'.list = []
    rw [hlist, show s.list = [] from h, List.filter_nil]
  | ticked =>
    show s'.list = []
    rw [hlist, show s.list = [] from h, List.filter_nil]

theorem CheckInv.stopped (h : CheckInv c) (t : TimerId) :
    CheckInv { c with store := c.store.stopChecked t } := by
  obtain ⟨⟨at_tick, hard⟩, hcall⟩ := h
  have hother : ∀ u, u ≠ t → (c.store.stopChecked t).timers u = c.store.timers u :=
    fun u hut => Timers.setTimer_of_ne _ _ hut
  refine ⟨⟨at_tick, hard.sublist rfl (fun u => ?_) List.filter_sublist fun u hu hk => ?_⟩,
    hcall.filter rfl rfl⟩
  · by_cases hut : u = t
    · subst hut
      rw [Timers.stopChecked, Timers.setTimer_self]
      exact hard.init_tick u
    · rw [hother u hut]
      exact hard.init_tick u
  · exact hk.congr (hother u (TimerSystem.mem_filter_ne.mp hu).2)

/-- A new period or a new kind does not move a timer. -/
theorem CheckInv.controlled (h : CheckInv c) (t : TimerId) {f : Timer → Timer}
    (hf : ∀ timer, ∃ time periodic, f timer = { timer with init_tick := time, periodic := periodic } ∧
      (timer.init_tick < RT_TICK_MAX / 2 → time < RT_TICK_MAX / 2)) :
    CheckInv { c with store := c.store.setTimer t f } := by
  obtain ⟨⟨at_tick, hard⟩, hcall⟩ := h
  obtain ⟨time, periodic, hft, htime⟩ := hf (c.store.timers t)
  refine ⟨⟨at_tick, hard.sublist rfl (fun u => ?_) (List.Sublist.refl _) fun u hu hk => ?_⟩, ?_⟩
  · by_cases hut : u = t
    · subst hut
      rw [Timers.setTimer_self, hft]
      exact htime (hard.init_tick u)
    · rw [Timers.setTimer_of_ne _ _ hut]
      exact hard.init_tick u
  · by_cases hut : u = t
    · subst hut
      obtain ⟨h1, h2, h3, h4, h5⟩ := hk
      refine ⟨?_, ?_, ?_, h4, h5⟩
      · rw [Timers.setTimer_self, hft]
        exact h1
      · rw [Timers.setTimer_self, hft]
        exact h2
      · rw [Timers.setTimer_self, hft]
        exact h3
    · exact hk.congr (Timers.setTimer_of_ne _ _ hut)
  · cases hphase : c.phase <;> rw [hphase] at hcall <;> exact hcall

theorem CheckInv.tick (h : CheckInv c) (hs : c.tick = some c') : CheckInv c' := by
  obtain ⟨⟨at_tick, hard⟩, hcall⟩ := h
  obtain ⟨hphase, hs⟩ := Option.ite_none_right_eq_some.mp hs
  obtain rfl := Option.some.inj hs
  rw [hphase] at hard hcall
  refine ⟨⟨at_tick, ?_, hard.init_tick, hard.nodup, fun u hu => ?_, hard.sorted⟩, hcall⟩
  · show add32 c.store.rt_tick 1 = (c.now + 1) % 2 ^ 32
    rw [hard.rt_tick]
    exact add32_mod _ _
  · obtain ⟨h1, h2, h3, h4, h5⟩ := hard.scheduled u hu
    exact ⟨h1, h2, h3, Nat.add_le_add_right h4 1, h5.trans (Nat.add_le_add_right (Nat.le_succ _) _)⟩

theorem CheckInv.turn (h : CheckInv c) (hs : c.turn = some c') : CheckInv c' := by
  obtain ⟨⟨at_tick, hard⟩, hcall⟩ := h
  unfold CheckSystem.turn at hs
  cases hphase : c.phase with
  | checking current_tick =>
    rw [hphase] at hard hcall
    obtain ⟨hnil, rfl⟩ := hcall
    simp only [hphase] at hs
    cases hnext : c.store.nextDue c.store.rt_tick with
    | some t =>
      simp only [hnext] at hs
      obtain rfl := Option.some.inj hs
      have htaken := takeDue_taken c.store t
      refine ⟨⟨at_tick, hard.taken htaken⟩, Or.inr ?_⟩
      rw [htaken.calling, hnil, List.filter_nil]
    | none =>
      simp only [hnext] at hs
      obtain rfl := Option.some.inj hs
      refine ⟨⟨at_tick, hard.rt_tick, hard.init_tick, hard.nodup, fun u hu => ?_, hard.sorted⟩, hnil⟩
      have hlater := hard.none_due (TimerPhase.late_le _) hnext hu
      obtain ⟨h1, h2, h3, -, h5⟩ := hard.scheduled u hu
      exact ⟨h1, h2, h3, Nat.le_of_lt hlater, h5⟩
  | _ => simp [hphase] at hs

theorem CheckInv.returns (h : CheckInv c) (hs : c.returns = some c') : CheckInv c' := by
  obtain ⟨⟨at_tick, hard⟩, hcall⟩ := h
  unfold CheckSystem.returns at hs
  cases hphase : c.phase with
  | calling t =>
    rw [hphase] at hard hcall
    simp only [hphase] at hs
    obtain ⟨store, hstore, rfl⟩ := Option.map_eq_some_iff.mp hs
    refine ⟨hard.afterTimeout (TimerPhase.late_le _) hstore, ?_, rfl⟩
    have hfilter : c.store.list.filter (· ≠ t) = [] := by
      rcases hcall with hnil | hone
      · rw [hnil, List.filter_nil]
      · simp [hone]
    rcases afterTimeout_cases hstore with ⟨hnil, rfl⟩ | ⟨-, rfl⟩ | ⟨-, hst⟩
    · exact hnil
    · exact hfilter
    · exact hst.list.trans hfilter
  | _ => simp [hphase] at hs

theorem CheckInv.step {l : CheckStep} (h : CheckInv c) (hs : c.step l = some c') : CheckInv c' := by
  cases l with
  | start t =>
    obtain ⟨store, hstore, rfl⟩ := Option.map_eq_some_iff.mp hs
    have hst := Timers.rt_timer_start_starts hstore
    obtain ⟨at_tick, hard⟩ := h.hard
    exact ⟨⟨_, hard.started (TimerPhase.late_le _) hst⟩, h.calling.filter hst.rt_tick hst.list⟩
  | stop t =>
    obtain rfl := Option.some.inj hs
    unfold Timers.rt_timer_stop
    split
    · exact h
    · exact h.stopped t
  | stopLate t =>
    obtain rfl := Option.some.inj hs
    exact h.stopped t
  | setTime t time =>
    obtain ⟨htime, hs⟩ := Option.ite_none_right_eq_some.mp hs
    obtain rfl := Option.some.inj hs
    exact h.controlled t fun timer => ⟨time, timer.periodic, rfl, fun _ => htime⟩
  | setPeriodic t periodic =>
    obtain rfl := Option.some.inj hs
    exact h.controlled t fun timer => ⟨timer.init_tick, periodic, rfl, id⟩
  | tick => exact h.tick hs
  | check =>
    obtain ⟨hphase, hs⟩ := Option.ite_none_right_eq_some.mp hs
    obtain rfl := Option.some.inj hs
    obtain ⟨hard, hcall⟩ := h
    rw [hphase] at hard hcall
    exact ⟨hard, hcall, rfl⟩
  | turn => exact h.turn hs
  | returns => exact h.returns hs

theorem Fresh.checkInv (h : c.Fresh) : CheckInv c := by
  obtain ⟨hrt, hinit, -, ⟨hlist, -, hnil⟩, hphase⟩ := h
  refine ⟨⟨fun _ => 0, hrt, hinit, ?_, fun u hu => ?_, ?_⟩, ?_⟩
  · rw [hlist]
    exact List.nodup_nil
  · rw [hlist] at hu
    cases hu
  · rw [hlist]
    exact List.Pairwise.nil
  · rw [hphase]
    exact hnil

theorem reachable_checkInv (hr : checkMachine.Reachable c) : CheckInv c :=
  hr.invariant (fun _ h => h.checkInv) fun _ _ _ _ h hs => h.step hs

end CheckSystem

/-- Whatever timers were started with whatever periods, the loop of a check whose timeout functions change
no timers ends exactly when no periodic timer that is due has a period of 0. -/
theorem timer_check_ends {c : CheckSystem} (hr : checkMachine.Reachable c) (hphase : c.phase = .ticked) :
    c.store.CheckEnds ↔ ∀ t ∈ c.store.rt_timer_list, c.store.due t = true →
      (c.store.timers t).periodic = true → 0 < (c.store.timers t).init_tick := by
  obtain ⟨⟨at_tick, hard⟩, hcall⟩ := CheckSystem.reachable_checkInv hr
  rw [hphase] at hcall
  have hlate := TimerPhase.late_le c.phase
  constructor
  · rintro ⟨turns, s', hend⟩ t ht hdue hper
    refine Nat.pos_of_ne_zero fun hzero => ?_
    rw [hard.endless hlate hcall ⟨ht, hdue, hper, hzero⟩] at hend
    cases hend
  · intro hpos
    refine hard.ends hlate hcall fun t hend => ?_
    obtain ⟨ht, hdue, hper, hzero⟩ := hend
    exact absurd hzero (Nat.ne_of_gt (hpos t ht hdue hper))

/-- Timer 0 is periodic and timer 1 is not, both with this period. -/
def twoTimers (period : Nat) : CheckSystem :=
  { store :=
      { rt_tick := 2 ^ 32 - 1
        timers := fun t => ⟨false, t = 0, false, 0, period⟩
        rt_timer_list := [], rt_soft_timer_list := [], list := [] }
    now := 2 ^ 32 - 1, phase := .waiting }

theorem twoTimers_fresh {period : Nat} (h : period < RT_TICK_MAX / 2) : (twoTimers period).Fresh :=
  ⟨rfl, fun _ => h, fun _ => rfl, ⟨rfl, rfl, rfl⟩, rfl⟩

def bothStarted : List CheckStep := [.start 0, .start 1, .tick]

theorem timer_check_ends_one : ∃ c, Machine.runs CheckSystem.step (twoTimers 1) bothStarted = some c ∧
    c.store.rt_timer_list = [0, 1] ∧ c.store.due 0 = true ∧ c.store.CheckEnds := by
  have hrun : ∃ c, Machine.runs CheckSystem.step (twoTimers 1) bothStarted = some c ∧
      c.phase = .ticked ∧ c.store.rt_timer_list = [0, 1] ∧ c.store.due 0 = true ∧
      ∀ t ∈ [0, 1], 0 < (c.store.timers t).init_tick := by
    decide +kernel
  obtain ⟨c, hc, hphase, hlist, hdue, hpos⟩ := hrun
  have hr : checkMachine.Reachable c :=
    (Machine.Reachable.start (twoTimers_fresh (by decide))).runs (fun _ _ _ hs => hs) hc
  refine ⟨c, hc, hlist, hdue, (timer_check_ends hr hphase).mpr fun t ht _ _ => hpos t ?_⟩
  rwa [hlist] at ht

theorem timer_check_ends_fails :
    ¬∀ c, checkMachine.Reachable c → c.phase = .ticked → c.store.CheckEnds := by
  have hrun : ∃ c, Machine.runs CheckSystem.step (twoTimers 0) bothStarted = some c ∧
      c.phase = .ticked ∧ 0 ∈ c.store.rt_timer_list ∧ c.store.due 0 = true ∧
      (c.store.timers 0).periodic = true ∧ (c.store.timers 0).init_tick = 0 := by
    decide +kernel
  obtain ⟨c, hc, hphase, hendless⟩ := hrun
  intro h
  have hr : checkMachine.Reachable c :=
    (Machine.Reachable.start (twoTimers_fresh (by decide))).runs (fun _ _ _ hs => hs) hc
  obtain ⟨turns, s', hend⟩ := h c hr hphase
  obtain ⟨⟨at_tick, hard⟩, hcall⟩ := CheckSystem.reachable_checkInv hr
  rw [hphase] at hcall
  rw [hard.endless (TimerPhase.late_le _) hcall hendless] at hend
  cases hend

end Ab32Vg1.Kernel
