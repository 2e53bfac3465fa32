import Ab32Vg1.Kernel.Timer
import Mathlib.Data.List.Perm.Subperm

/-! Runs of the timers.  A timer that is armed is in the list until the tick it is armed for, and
the list is ordered by these ticks, so the check finds at its head what is due. -/

namespace Ab32Vg1.Kernel

open ProofKit

/-! ### Ticks that wrap -/

section

variable {d e now : Nat}

theorem half_tick : RT_TICK_MAX / 2 = 2147483647 := rfl

theorem validPeriod_iff {period : Nat} :
    ValidPeriod period ↔ 1 ≤ period ∧ period ≤ 2147483646 := Iff.rfl

/-- A tick in the near future has come only when it is the present one. -/
theorem tickReached_iff (hd : now ≤ d) (hfar : d ≤ now + 2147483646) :
    tickReached (now % 2 ^ 32) (d % 2 ^ 32) = true ↔ d = now := by
  unfold tickReached sub32
  rw [half_tick, decide_eq_true_iff]
  omega

theorem add32_mod (now period : Nat) : add32 (now % 2 ^ 32) period = (now + period) % 2 ^ 32 := by
  unfold add32
  omega

/-- The unsigned difference orders ticks in the near future. -/
theorem sub32_mod (hle : d ≤ e) (hfar : e ≤ d + 2147483646) :
    sub32 (e % 2 ^ 32) (d % 2 ^ 32) = e - d := by
  unfold sub32
  omega

variable (now) in
/-- The search for the place of a timer stops before the first later one. -/
theorem stopsAt_iff {timer t : Timer} (ht : timer.timeout_tick = d % 2 ^ 32)
    (hu : t.timeout_tick = e % 2 ^ 32) (hd : now ≤ d) (hd' : d ≤ now + 2147483646) (he : now ≤ e)
    (he' : e ≤ now + 2147483646) : Timers.stopsAt timer t = true ↔ d < e := by
  unfold Timers.stopsAt
  rw [ht, hu, half_tick]
  by_cases hle : d ≤ e
  · rw [sub32_mod hle (by omega)]
    split_ifs with h
    · simp only [false_iff]
      omega
    · rw [decide_eq_true_iff]
      omega
  · have hsub : sub32 (e % 2 ^ 32) (d % 2 ^ 32) = 2 ^ 32 - (d - e) := by
      unfold sub32
      omega
    rw [hsub, if_neg (by omega), decide_eq_true_iff]
    omega

end

/-! ### The operations -/

namespace Timers

variable {s s' : Timers} {t u : TimerId}

@[simp] theorem setTimer_self (s : Timers) (t : TimerId) (f : Timer → Timer) :
    (s.setTimer t f).timers t = f (s.timers t) := by
  simp [setTimer]

theorem setTimer_of_ne (s : Timers) {t u : TimerId} (f : Timer → Timer) (h : u ≠ t) :
    (s.setTimer t f).timers u = s.timers u := Function.update_of_ne h _ _

/-- What a start does. -/
structure Starts (s s' : Timers) (t : TimerId) : Prop where
  rt_tick : s'.rt_tick = s.rt_tick
  other : ∀ u, u ≠ t → s'.timers u = s.timers u
  self : s'.timers t = { s.timers t with
    activated := true, timeout_tick := add32 s.rt_tick (s.timers t).init_tick }
  list : s'.list = s.list.filter (· ≠ t)
  soft : (s.timers t).soft = true → s'.rt_timer_list = s.rt_timer_list.filter (· ≠ t)
  hard : (s.timers t).soft = false → s'.rt_timer_list =
    insertStable (fun u => stopsAt (s'.timers t) (s'.timers u)) t (s.rt_timer_list.filter (· ≠ t))

/-- What no operation changes but a new period. -/
structure Fixed (timer timer' : Timer) : Prop where
  periodic : timer'.periodic = timer.periodic
  soft : timer'.soft = timer.soft
  init_tick : timer'.init_tick = timer.init_tick

theorem Starts.fixed (h : Starts s s' t) (u : TimerId) : Fixed (s.timers u) (s'.timers u) := by
  by_cases hut : u = t
  · subst hut
    rw [h.self]
    exact ⟨rfl, rfl, rfl⟩
  · rw [h.other u hut]
    exact ⟨rfl, rfl, rfl⟩

theorem rt_timer_start_starts (hs : s.rt_timer_start t = some s') : Starts s s' t := by
  obtain ⟨-, hs⟩ := RT_ASSERT_bind_eq_some.mp hs
  obtain rfl := Option.some.inj hs
  have hself : ∀ (s : Timers) (f g : Timer → Timer), (s.setTimer t f).setTimer t g =
      s.setTimer t fun timer => g (f timer) := fun s f g => by
    simp [setTimer]
  cases hsoft : (s.timers t).soft with
  | true =>
    simp only [hself, setTimer_self, _rt_timer_remove, hsoft, if_true]
    refine ⟨rfl, fun u hu => ?_, ?_, rfl, fun _ => rfl, fun h => absurd (hsoft.symm.trans h) ?_⟩
    · simp [setTimer, hu]
    · simp [setTimer]
    · decide
  | false =>
    simp only [hself, setTimer_self, _rt_timer_remove, hsoft, Bool.false_eq_true, if_false]
    refine ⟨rfl, fun u hu => ?_, ?_, rfl, fun h => absurd (hsoft.symm.trans h) ?_, fun _ => ?_⟩
    · simp [setTimer, hu]
    · simp [setTimer]
    · decide
    · -- the place depends on the timeouts only
      unfold Timers.insert
      dsimp only [setTimer]
      congr 1
      funext u
      by_cases hut : u = t
      · subst hut
        simp [stopsAt]
      · simp [stopsAt, hut]

theorem rt_timer_start_returns (hp : (s.timers t).init_tick < RT_TICK_MAX / 2) :
    ∃ s', s.rt_timer_start t = some s' := by
  unfold rt_timer_start
  have hassert : RT_ASSERT ((((s._rt_timer_remove t).setTimer t fun timer =>
      { timer with activated := false }).timers t).init_tick < RT_TICK_MAX / 2) = some () :=
    RT_ASSERT_true (by simpa [setTimer, _rt_timer_remove] using hp)
  simp only [hassert]
  exact ⟨_, rfl⟩

end Timers

/-! ### Logs -/

section

variable {t u : TimerId} {log late early : List TimerEvent} {periodic : TimerId → Bool}

/-- Every timer in the log fired when it was armed, and was armed again if it is periodic. -/
def LogOk (periodic : TimerId → Bool) : List TimerEvent → Prop
  | [] => True
  | .started _ _ period :: log => 1 ≤ period ∧ LogOk periodic log
  | .stopped _ :: log => LogOk periodic log
  | .fired t at_tick again :: log => (∃ period, armed t log = some (at_tick, period) ∧
      again = if periodic t then some period else none) ∧ LogOk periodic log

theorem LogOk.drop (h : LogOk periodic (late ++ early)) : LogOk periodic early := by
  induction late with
  | nil => exact h
  | cons entry late ih =>
    cases entry with
    | started u at_tick period => exact ih h.2
    | stopped u => exact ih h
    | fired u at_tick again => exact ih h.2

theorem LogOk.congr {periodic' : TimerId → Bool} (h : LogOk periodic log)
    (hp : ∀ t, periodic' t = periodic t) : LogOk periodic' log := by
  rwa [funext hp]

theorem Undisturbed.tail {entry : TimerEvent} (h : Undisturbed t (entry :: late)) :
    Undisturbed t late :=
  ⟨fun at_tick period hm => h.1 at_tick period (List.mem_cons_of_mem _ hm),
    fun hm => h.2 (List.mem_cons_of_mem _ hm)⟩

theorem armed_started_of_ne {at_tick period : Nat} (h : u ≠ t) :
    armed t (.started u at_tick period :: log) = armed t log := if_neg h

theorem armed_stopped_of_ne (h : u ≠ t) : armed t (.stopped u :: log) = armed t log := if_neg h

theorem armed_fired_of_ne {at_tick : Nat} {again : Option Nat} (h : u ≠ t) :
    armed t (.fired u at_tick again :: log) = armed t log := if_neg h

theorem firings_fired_of_ne {at_tick : Nat} {again : Option Nat} (h : u ≠ t) :
    firings t (.fired u at_tick again :: log) = firings t log := if_neg h

theorem firings_append : firings t (late ++ early) = firings t late ++ firings t early := by
  induction late with
  | nil => rfl
  | cons entry late ih =>
    cases entry with
    | started u at_tick period => exact ih
    | stopped u => exact ih
    | fired u at_tick again =>
      simp only [List.cons_append, firings]
      split
      · rw [ih, List.cons_append]
      · exact ih

/-- After a start a one-shot timer has yet to fire, or has fired once. -/
theorem LogOk.one_shot {at_tick period : Nat}
    (h : LogOk periodic (late ++ .started t at_tick period :: early)) (hu : Undisturbed t late)
    (hp : periodic t = false) :
    (firings t late = [] ∧ armed t (late ++ .started t at_tick period :: early) =
      some (at_tick + period, period)) ∨
    (firings t late = [at_tick + period] ∧
      armed t (late ++ .started t at_tick period :: early) = none) := by
  induction late with
  | nil => exact Or.inl ⟨rfl, if_pos rfl⟩
  | cons entry late ih =>
    cases entry with
    | started u at_tick' period' =>
      have hut : u ≠ t := fun heq => hu.1 at_tick' period' (heq ▸ List.mem_cons_self)
      rw [List.cons_append, armed_started_of_ne hut]
      exact ih h.2 hu.tail
    | stopped u =>
      have hut : u ≠ t := fun heq => hu.2 (heq ▸ List.mem_cons_self)
      rw [List.cons_append, armed_stopped_of_ne hut]
      exact ih h hu.tail
    | fired u at_tick' again =>
      by_cases hut : u = t
      · subst hut
        obtain ⟨⟨period', harmed, hagain⟩, hlog⟩ := h
        rw [hp, if_neg (by simp)] at hagain
        rcases ih hlog hu.tail with ⟨hf, ha⟩ | ⟨-, ha⟩
        · obtain ⟨rfl, rfl⟩ := Prod.mk.inj (Option.some.inj (harmed.symm.trans ha))
          refine Or.inr ⟨by simp [firings, hf], ?_⟩
          rw [List.cons_append, armed, if_pos rfl, hagain]
          rfl
        · exact absurd (harmed.symm.trans ha) (by simp)
      · rw [List.cons_append, armed_fired_of_ne hut, firings_fired_of_ne hut]
        exact ih h.2 hu.tail

/-- After a start a periodic timer has fired once for every period that is over. -/
theorem LogOk.periods {at_tick period : Nat}
    (h : LogOk periodic (late ++ .started t at_tick period :: early)) (hu : Undisturbed t late)
    (hp : periodic t = true) :
    ∃ n, firings t late = ((List.range n).map fun k => at_tick + (k + 1) * period).reverse ∧
      armed t (late ++ .started t at_tick period :: early) =
        some (at_tick + (n + 1) * period, period) := by
  induction late with
  | nil =>
    refine ⟨0, rfl, ?_⟩
    rw [Nat.zero_add, Nat.one_mul]
    exact if_pos rfl
  | cons entry late ih =>
    cases entry with
    | started u at_tick' period' =>
      have hut : u ≠ t := fun heq => hu.1 at_tick' period' (heq ▸ List.mem_cons_self)
      rw [List.cons_append, armed_started_of_ne hut]
      exact ih h.2 hu.tail
    | stopped u =>
      have hut : u ≠ t := fun heq => hu.2 (heq ▸ List.mem_cons_self)
      rw [List.cons_append, armed_stopped_of_ne hut]
      exact ih h hu.tail
    | fired u at_tick' again =>
      by_cases hut : u = t
      · subst hut
        obtain ⟨⟨period', harmed, hagain⟩, hlog⟩ := h
        rw [hp, if_pos rfl] at hagain
        obtain ⟨n, hf, ha⟩ := ih hlog hu.tail
        obtain ⟨rfl, rfl⟩ := Prod.mk.inj (Option.some.inj (harmed.symm.trans ha))
        refine ⟨n + 1, ?_, ?_⟩
        · rw [List.range_succ, List.map_append, List.reverse_append, ← hf]
          simp [firings]
        · rw [List.cons_append, armed, if_pos rfl, hagain, Option.map_some]
          rw [Nat.add_assoc, ← Nat.succ_mul]
      · rw [List.cons_append, armed_fired_of_ne hut, firings_fired_of_ne hut]
        exact ih h.2 hu.tail

/-- A stopped timer does not fire. -/
theorem LogOk.stopped (h : LogOk periodic (late ++ .stopped t :: early)) (hu : Undisturbed t late) :
    firings t late = [] ∧ armed t (late ++ .stopped t :: early) = none := by
  induction late with
  | nil => exact ⟨rfl, if_pos rfl⟩
  | cons entry late ih =>
    cases entry with
    | started u at_tick' period' =>
      have hut : u ≠ t := fun heq => hu.1 at_tick' period' (heq ▸ List.mem_cons_self)
      rw [List.cons_append, armed_started_of_ne hut]
      exact ih h.2 hu.tail
    | stopped u =>
      have hut : u ≠ t := fun heq => hu.2 (heq ▸ List.mem_cons_self)
      rw [List.cons_append, armed_stopped_of_ne hut]
      exact ih h hu.tail
    | fired u at_tick' again =>
      obtain ⟨⟨period', harmed, -⟩, hlog⟩ := h
      obtain ⟨hf, ha⟩ := ih hlog hu.tail
      by_cases hut : u = t
      · subst hut
        exact absurd (harmed.symm.trans ha) (by simp)
      · rw [List.cons_append, armed_fired_of_ne hut, firings_fired_of_ne hut]
        exact ⟨hf, ha⟩

end

/-! ### The list -/

namespace TimerSystem

/-- `t` has to fire before `u`, or at the same tick and was started before. -/
def Before (c : TimerSystem) (t u : TimerId) : Prop :=
  ∀ d p e q, armed t c.log = some (d, p) → armed u c.log = some (e, q) →
    d < e ∨ d = e ∧ c.startOrder t < c.startOrder u

/-- A timer in the list is armed for a tick in the near future. -/
structure Pending (c : TimerSystem) (t : TimerId) : Prop where
  soft : (c.timer t).soft = false
  activated : (c.timer t).activated = true
  due : ∃ d, armed t c.log = some (d, (c.timer t).init_tick) ∧
    (c.timer t).timeout_tick = d % 2 ^ 32 ∧ c.now ≤ d ∧ d ≤ c.now + 2147483646
  order : c.startOrder t < c.starts

structure ListOk (c : TimerSystem) : Prop where
  nodup : c.store.rt_timer_list.Nodup
  pending : ∀ t ∈ c.store.rt_timer_list, c.Pending t
  sorted : c.store.rt_timer_list.Pairwise c.Before

variable {c c' : TimerSystem} {t u : TimerId}

theorem Before.congr (h : c.Before t u) (ht : armed t c'.log = armed t c.log)
    (hu : armed u c'.log = armed u c.log) (hot : c'.startOrder t = c.startOrder t)
    (hou : c'.startOrder u = c.startOrder u) : c'.Before t u := by
  unfold Before
  rw [ht, hu, hot, hou]
  exact h

theorem Pending.congr (h : c.Pending t) (htimer : c'.timer t = c.timer t)
    (ht : armed t c'.log = armed t c.log) (hnow : c'.now = c.now)
    (ho : c'.startOrder t = c.startOrder t) (hstarts : c.starts ≤ c'.starts) : c'.Pending t := by
  obtain ⟨h1, h2, ⟨d, h3, h4, h5, h6⟩, h7⟩ := h
  refine ⟨by rw [htimer]; exact h1, by rw [htimer]; exact h2, ⟨d, ?_, ?_, ?_, ?_⟩, ?_⟩
  · rw [ht, htimer]
    exact h3
  · rw [htimer]
    exact h4
  · rw [hnow]
    exact h5
  · rw [hnow]
    exact h6
  · rw [ho]
    exact Nat.lt_of_lt_of_le h7 hstarts

/-- Some timers leave the list, and those that stay are as they were. -/
theorem ListOk.sublist (h : ListOk c)
    (hsub : c'.store.rt_timer_list.Sublist c.store.rt_timer_list)
    (hkeep : ∀ u ∈ c'.store.rt_timer_list, c'.timer u = c.timer u ∧
      armed u c'.log = armed u c.log ∧ c'.startOrder u = c.startOrder u)
    (hnow : c'.now = c.now) (hstarts : c.starts ≤ c'.starts) : ListOk c' := by
  refine ⟨h.nodup.sublist hsub, fun u hu => ?_, ?_⟩
  · obtain ⟨h1, h2, h3⟩ := hkeep u hu
    exact (h.pending u (hsub.subset hu)).congr h1 h2 hnow h3 hstarts
  · refine (h.sorted.sublist hsub).imp_of_mem fun ht hu hb => ?_
    obtain ⟨-, h2, h3⟩ := hkeep _ ht
    obtain ⟨-, h2', h3'⟩ := hkeep _ hu
    exact hb.congr h2 h2' h3 h3'

/-- A timer is started, as the last one. -/
theorem ListOk.started (h : ListOk c) (hs : Timers.Starts c.store c'.store t)
    (hrt : c.store.rt_tick = c.now % 2 ^ 32) (hp : ValidPeriod (c.timer t).init_tick)
    (hsoft : (c.timer t).soft = false)
    (harmed : armed t c'.log = some (c.now + (c.timer t).init_tick, (c.timer t).init_tick))
    (hother : ∀ u, u ≠ t → armed u c'.log = armed u c.log ∧ c'.startOrder u = c.startOrder u)
    (hnow : c'.now = c.now) (horder : c'.startOrder t = c.starts)
    (hstarts : c'.starts = c.starts + 1) : ListOk c' := by
  have hlist := hs.hard hsoft
  rw [validPeriod_iff] at hp
  have hself : (c'.timer t).timeout_tick = (c.now + (c.timer t).init_tick) % 2 ^ 32 := by
    show (c'.store.timers t).timeout_tick = _
    rw [hs.self, hrt]
    exact add32_mod _ _
  have hmem : ∀ u ∈ c.store.rt_timer_list.filter (· ≠ t), u ∈ c.store.rt_timer_list ∧ u ≠ t := by
    intro u hu
    simpa using List.mem_filter.mp hu
  have hpend : ∀ u ∈ c.store.rt_timer_list.filter (· ≠ t), c'.Pending u := by
    intro u hu
    obtain ⟨hu, hut⟩ := hmem u hu
    exact (h.pending u hu).congr (hs.other u hut) (hother u hut).1 hnow (hother u hut).2 (by omega)
  have hpendt : c'.Pending t := by
    refine ⟨?_, ?_, ⟨c.now + (c.timer t).init_tick, ?_, hself, by omega, by omega⟩, by omega⟩
    · exact (congrArg Timer.soft hs.self).trans hsoft
    · exact congrArg Timer.activated hs.self
    · have hinit : (c'.timer t).init_tick = (c.timer t).init_tick := (hs.fixed t).init_tick
      rw [harmed, hinit]
  -- the search stops at the first timer that has to fire later
  have hstop : ∀ u ∈ c.store.rt_timer_list.filter (· ≠ t), ∀ e q, armed u c'.log = some (e, q) →
      (Timers.stopsAt (c'.timer t) (c'.timer u) = true ↔ c.now + (c.timer t).init_tick < e) := by
    intro u hu e q he
    obtain ⟨d, hd, htick, hle, hfar⟩ := (hpend u hu).due
    obtain ⟨rfl, -⟩ := Prod.mk.inj (Option.some.inj (hd.symm.trans he))
    exact stopsAt_iff c.now hself htick (by omega) (by omega) (by omega) (by omega)
  have hsorted : (c.store.rt_timer_list.filter (· ≠ t)).Pairwise c'.Before := by
    refine (h.sorted.sublist List.filter_sublist).imp_of_mem fun ht hu hb => ?_
    exact hb.congr (hother _ (hmem _ ht).2).1 (hother _ (hmem _ hu).2).1 (hother _ (hmem _ ht).2).2
      (hother _ (hmem _ hu).2).2
  refine ⟨?_, fun u hu => ?_, ?_⟩
  · rw [hlist, insertStable_perm.nodup_iff]
    exact List.nodup_cons.mpr ⟨by simp, h.nodup.filter _⟩
  · rw [hlist] at hu
    rcases mem_insertStable.mp hu with rfl | hu
    · exact hpendt
    · exact hpend u hu
  · rw [hlist]
    refine insertStable_pairwise hsorted (fun u hu hl => ?_) (fun u hu v hv hl hb => ?_)
      (fun u hu hl => ?_)
    · intro d p e q hd he
      obtain ⟨rfl, -⟩ := Prod.mk.inj (Option.some.inj (harmed.symm.trans hd))
      exact Or.inl ((hstop u hu e q he).mp hl)
    · intro d p e q hd he
      obtain ⟨rfl, -⟩ := Prod.mk.inj (Option.some.inj (harmed.symm.trans hd))
      obtain ⟨d', hd', -, -, -⟩ := (hpend u hu).due
      have hlt := (hstop u hu d' _ hd').mp hl
      rcases hb d' _ e q hd' he with hlt' | ⟨heq, -⟩
      · exact Or.inl (by omega)
      · exact Or.inl (by omega)
    · intro d p e q hd he
      obtain ⟨rfl, -⟩ := Prod.mk.inj (Option.some.inj (harmed.symm.trans he))
      have hnot : ¬c.now + (c.timer t).init_tick < d := fun hlt =>
        absurd (hl.symm.trans ((hstop u hu d p hd).mpr hlt)) (by decide)
      obtain ⟨hu, hut⟩ := hmem u hu
      have hlt := (h.pending u hu).order
      rw [(hother u hut).2, horder]
      omega

/-! ### The invariant -/

/-- While the timeout function of `t` runs, `t` is in the local list of the check until it is
started or stopped. -/
def CallingOk (c : TimerSystem) (t : TimerId) : Prop :=
  c.store.list = [] ∨ c.store.list = [t] ∧ t ∉ c.store.rt_timer_list ∧
    (c.timer t).soft = false ∧
    if (c.timer t).periodic then (c.timer t).activated = true ∧
      armed t c.log = some (c.now + (c.timer t).init_tick, (c.timer t).init_tick)
    else armed t c.log = none

def PhaseOk (c : TimerSystem) : Prop :=
  match c.phase with
  | .waiting => c.store.list = [] ∧ ∀ t ∈ c.store.rt_timer_list, ∀ d p,
      armed t c.log = some (d, p) → c.now < d
  | .ticked => c.store.list = []
  | .checking current_tick => c.store.list = [] ∧ current_tick = c.store.rt_tick
  | .calling t => c.CallingOk t

structure TimerInv (c : TimerSystem) : Prop where
  rt_tick : c.store.rt_tick = c.now % 2 ^ 32
  period : ∀ t, ValidPeriod (c.timer t).init_tick
  list : ListOk c
  phase : c.PhaseOk
  listed : ∀ t d p, (c.timer t).soft = false → armed t c.log = some (d, p) →
    t ∈ c.store.rt_timer_list ∨ c.phase = .calling t ∧ t ∈ c.store.list
  log : LogOk (fun t => (c.timer t).periodic) c.log
  times : ∀ t, ∀ d ∈ firings t c.log, d ≤ c.now
  startTimes : ∀ t at_tick period, .started t at_tick period ∈ c.log → at_tick ≤ c.now

theorem Fresh.timerInv (h : Fresh c) : TimerInv c := by
  obtain ⟨hlist, -, hlocal⟩ := h.lists
  have hfirings : ∀ t, firings t c.log = [] := fun t => by rw [h.log]; rfl
  refine ⟨h.rt_tick, h.period, ⟨?_, ?_, ?_⟩, ?_, ?_, ?_, ?_, ?_⟩
  · rw [hlist]
    exact List.nodup_nil
  · simp [hlist]
  · rw [hlist]
    exact List.Pairwise.nil
  · rw [PhaseOk, h.phase]
    exact ⟨hlocal, by simp [hlist]⟩
  · simp [h.log, armed]
  · rw [h.log]
    trivial
  · simp [hfirings]
  · simp [h.log]

/-- An inactive timer is not armed. -/
theorem TimerInv.not_armed (h : TimerInv c) (hsoft : (c.timer t).soft = false)
    (hact : (c.timer t).activated = false) : armed t c.log = none := by
  by_contra hne
  obtain ⟨⟨d, p⟩, hd⟩ := Option.ne_none_iff_exists'.mp hne
  rcases h.listed t d p hsoft hd with hmem | ⟨hphase, hmem⟩
  · exact absurd ((h.list.pending t hmem).activated.symm.trans hact) (by decide)
  · have hok := h.phase
    rw [PhaseOk, hphase] at hok
    rcases hok with hnil | ⟨-, -, -, hcase⟩
    · rw [hnil] at hmem
      cases hmem
    · cases hper : (c.timer t).periodic with
      | true =>
        rw [hper, if_pos rfl] at hcase
        exact absurd (hcase.1.symm.trans hact) (by decide)
      | false =>
        rw [hper, if_neg (by decide)] at hcase
        exact hne hcase

theorem filter_singleton_ne (t u : TimerId) :
    [u].filter (· ≠ t) = if u = t then [] else [u] := by
  by_cases hut : u = t <;> simp [hut]

/-- A step that starts or stops `t` keeps what holds of the phase. -/
theorem TimerInv.phase_of_ne (h : TimerInv c) (hphase : c'.phase = c.phase)
    (hlocal : c'.store.list = c.store.list.filter (· ≠ t)) (hrt : c'.store.rt_tick = c.store.rt_tick)
    (hnow : c'.now = c.now) (hother : ∀ u, u ≠ t → c'.timer u = c.timer u ∧
      armed u c'.log = armed u c.log)
    (hlist : ∀ u, u ≠ t → u ∈ c'.store.rt_timer_list → u ∈ c.store.rt_timer_list)
    (hself : t ∈ c'.store.rt_timer_list → ∀ d p, armed t c'.log = some (d, p) → c.now < d) :
    c'.PhaseOk := by
  have hok := h.phase
  unfold PhaseOk at hok ⊢
  rw [hphase]
  cases hp : c.phase with
  | waiting =>
    simp only [hp] at hok
    refine ⟨by rw [hlocal, hok.1]; rfl, fun u hu d p hd => ?_⟩
    rw [hnow]
    by_cases hut : u = t
    · subst hut
      exact hself hu d p hd
    · exact hok.2 u (hlist u hut hu) d p ((hother u hut).2.symm.trans hd)
  | ticked =>
    simp only [hp] at hok
    show c'.store.list = []
    rw [hlocal, hok]
    rfl
  | checking current_tick =>
    simp only [hp] at hok
    exact ⟨by rw [hlocal, hok.1]; rfl, hok.2.trans hrt.symm⟩
  | calling u =>
    simp only [hp] at hok
    rcases hok with hnil | ⟨hcons, hmem, hrest⟩
    · exact Or.inl (by rw [hlocal, hnil]; rfl)
    · rw [hcons, filter_singleton_ne] at hlocal
      by_cases hut : u = t
      · exact Or.inl (by rw [hlocal, if_pos hut])
      · rw [if_neg hut] at hlocal
        obtain ⟨h1, h2⟩ := hother u hut
        refine Or.inr ⟨hlocal, fun hm => hmem (hlist u hut hm), ?_⟩
        rw [h1, h2, hnow]
        exact hrest

theorem TimerInv.start (h : TimerInv c) (hs : c.start t = some c') : TimerInv c' := by
  obtain ⟨store, hstart, hs⟩ := Option.bind_eq_some_iff.mp hs
  obtain rfl := Option.some.inj hs
  have hst := Timers.rt_timer_start_starts hstart
  have hother : ∀ u, u ≠ t → armed u (.started t c.now (c.timer t).init_tick :: c.log) =
      armed u c.log := fun u hut => armed_started_of_ne (Ne.symm hut)
  have hself : armed t (.started t c.now (c.timer t).init_tick :: c.log) =
      some (c.now + (c.timer t).init_tick, (c.timer t).init_tick) := if_pos rfl
  have horder : ∀ u, u ≠ t → Function.update c.startOrder t c.starts u = c.startOrder u :=
    fun u hut => Function.update_of_ne hut _ _
  have hperiod := h.period t
  rw [validPeriod_iff] at hperiod
  have hmem : ∀ u, u ∈ store.rt_timer_list → u ≠ t → u ∈ c.store.rt_timer_list := by
    intro u hu hut
    cases hsoft : (c.timer t).soft with
    | true =>
      rw [hst.soft hsoft] at hu
      exact (List.mem_filter.mp hu).1
    | false =>
      rw [hst.hard hsoft] at hu
      rcases mem_insertStable.mp hu with rfl | hu
      · exact absurd rfl hut
      · exact (List.mem_filter.mp hu).1
  refine ⟨hst.rt_tick.trans h.rt_tick, fun u => (hst.fixed u).init_tick ▸ h.period u, ?_, ?_, ?_, ?_, ?_, ?_⟩
  · cases hsoft : (c.timer t).soft with
    | true =>
      have hlist := hst.soft hsoft
      refine h.list.sublist (by rw [hlist]; exact List.filter_sublist) (fun u hu => ?_) rfl (by simp)
      have hut : u ≠ t := by
        rw [hlist] at hu
        simpa using (List.mem_filter.mp hu).2
      exact ⟨hst.other u hut, hother u hut, horder u hut⟩
    | false =>
      exact h.list.started hst h.rt_tick (h.period t) hsoft hself
        (fun u hut => ⟨hother u hut, horder u hut⟩) rfl (Function.update_self ..) rfl
  · refine h.phase_of_ne (t := t) rfl hst.list hst.rt_tick rfl
      (fun u hut => ⟨hst.other u hut, hother u hut⟩) (fun u hut hu => hmem u hu hut) fun _ d p hd => ?_
    obtain ⟨rfl, -⟩ := Prod.mk.inj (Option.some.inj (hself.symm.trans hd))
    omega
  · intro u d p hsoft hd
    by_cases hut : u = t
    · subst hut
      refine Or.inl ?_
      rw [hst.hard ((hst.fixed u).soft.symm.trans hsoft)]
      exact mem_insertStable.mpr (Or.inl rfl)
    · have hsoft' : (c.timer u).soft = false := (hst.fixed u).soft.symm.trans hsoft
      refine (h.listed u d p hsoft' ((hother u hut).symm.trans hd)).imp (fun hu => ?_) fun hu => ?_
      · show u ∈ store.rt_timer_list
        cases hsoftt : (c.timer t).soft with
        | true =>
          rw [hst.soft hsoftt]
          exact List.mem_filter.mpr ⟨hu, by simpa using hut⟩
        | false =>
          rw [hst.hard hsoftt]
          exact mem_insertStable.mpr (Or.inr (List.mem_filter.mpr ⟨hu, by simpa using hut⟩))
      · refine ⟨hu.1, ?_⟩
        show u ∈ store.list
        rw [hst.list]
        exact List.mem_filter.mpr ⟨hu.2, by simpa using hut⟩
  · refine ⟨hperiod.1, ?_⟩
    exact h.log.congr fun u => (hst.fixed u).periodic
  · exact h.times
  · intro u at_tick period hu
    rcases List.mem_cons.mp hu with hu | hu
    · cases hu
      exact Nat.le_refl _
    · exact h.startTimes u at_tick period hu

theorem mem_filter_ne {l : List TimerId} : u ∈ l.filter (· ≠ t) ↔ u ∈ l ∧ u ≠ t := by
  simp

theorem TimerInv.stopped (h : TimerInv c) (t : TimerId) :
    TimerInv (c.stopped t (c.store.stopChecked t)) := by
  let c' := c.stopped t (c.store.stopChecked t)
  have htimer : ∀ u, u ≠ t → c'.timer u = c.timer u := fun u hut =>
    Function.update_of_ne hut _ _
  have hself : c'.timer t = { c.timer t with activated := false } := Function.update_self ..
  have hfixed : ∀ u, Timers.Fixed (c.timer u) (c'.timer u) := fun u => by
    by_cases hut : u = t
    · subst hut
      rw [hself]
      exact ⟨rfl, rfl, rfl⟩
    · rw [htimer u hut]
      exact ⟨rfl, rfl, rfl⟩
  have hother : ∀ u, u ≠ t → armed u c'.log = armed u c.log := fun u hut => by
    show armed u (if (c.timer t).activated then .stopped t :: c.log else c.log) = _
    split
    · exact armed_stopped_of_ne (Ne.symm hut)
    · rfl
  -- afterwards the timer is not armed
  have hnone : (c.timer t).soft = false → armed t c'.log = none := fun hsoft => by
    show armed t (if (c.timer t).activated then .stopped t :: c.log else c.log) = _
    split
    · exact if_pos rfl
    · exact h.not_armed hsoft (by simpa using ‹¬(c.timer t).activated = true›)
  have hmem : ∀ u, u ∈ c'.store.rt_timer_list ↔ u ∈ c.store.rt_timer_list ∧ u ≠ t :=
    fun u => mem_filter_ne
  refine ⟨h.rt_tick, fun u => (hfixed u).init_tick ▸ h.period u, ?_, ?_, fun u d p hsoft hd => ?_,
    ?_, fun u d hd => ?_, fun u at_tick period hu => ?_⟩
  · refine h.list.sublist List.filter_sublist (fun u hu => ?_) rfl (Nat.le_refl _)
    have hut := ((hmem u).mp hu).2
    exact ⟨htimer u hut, hother u hut, rfl⟩
  · refine h.phase_of_ne (t := t) rfl rfl rfl rfl (fun u hut => ⟨htimer u hut, hother u hut⟩)
      (fun u _ hu => ((hmem u).mp hu).1) fun hu => ?_
    exact absurd rfl ((hmem t).mp hu).2
  · have hsoft' : (c.timer u).soft = false := (hfixed u).soft.symm.trans hsoft
    have hut : u ≠ t := by
      rintro rfl
      exact absurd (hd.symm.trans (hnone hsoft')) (by simp)
    refine (h.listed u d p hsoft' ((hother u hut).symm.trans hd)).imp (fun hu => (hmem u).mpr ⟨hu, hut⟩)
      fun hu => ⟨hu.1, mem_filter_ne.mpr ⟨hu.2, hut⟩⟩
  · refine LogOk.congr ?_ fun u => (hfixed u).periodic
    show LogOk _ (if (c.timer t).activated then .stopped t :: c.log else c.log)
    split
    · exact h.log
    · exact h.log
  · refine h.times u d ?_
    have hlog : firings u c'.log = firings u c.log := by
      show firings u (if (c.timer t).activated then .stopped t :: c.log else c.log) = _
      split <;> rfl
    rwa [← hlog]
  · have hu : TimerEvent.started u at_tick period ∈
        if (c.timer t).activated then .stopped t :: c.log else c.log := hu
    refine h.startTimes u at_tick period ?_
    split at hu
    · simpa using hu
    · exact hu

theorem TimerInv.stop (h : TimerInv c) (t : TimerId) : TimerInv (c.stop t) := by
  unfold TimerSystem.stop Timers.rt_timer_stop
  by_cases hact : (c.store.timers t).activated = false
  · rw [if_pos hact]
    have hlog : (if (c.timer t).activated then TimerEvent.stopped t :: c.log else c.log) = c.log :=
      if_neg (by rw [timer, hact]; decide)
    unfold TimerSystem.stopped
    rw [hlog]
    exact h
  · rw [if_neg hact]
    exact h.stopped t

theorem TimerInv.setTime {time : Nat} (h : TimerInv c) (hs : c.setTime t time = some c') :
    TimerInv c' := by
  unfold TimerSystem.setTime at hs
  by_cases hguard : (c.timer t).activated = false ∧ ValidPeriod time
  · rw [if_pos hguard] at hs
    obtain rfl := Option.some.inj hs
    obtain ⟨hact, hvalid⟩ := hguard
    let c' : TimerSystem := { c with store := c.store.rt_timer_control_set_time t time }
    have htimer : ∀ u, u ≠ t → c'.timer u = c.timer u := fun u hut =>
      Function.update_of_ne hut _ _
    have hself : c'.timer t = { c.timer t with init_tick := time } := Function.update_self ..
    have hsoft : ∀ u, (c'.timer u).soft = (c.timer u).soft := fun u => by
      by_cases hut : u = t
      · subst hut
        rw [hself]
      · rw [htimer u hut]
    have hper : ∀ u, (c'.timer u).periodic = (c.timer u).periodic := fun u => by
      by_cases hut : u = t
      · subst hut
        rw [hself]
      · rw [htimer u hut]
    have hnot : t ∉ c.store.rt_timer_list := fun hm =>
      absurd ((h.list.pending t hm).activated.symm.trans hact) (by decide)
    refine ⟨h.rt_tick, fun u => ?_, ?_, ?_, fun u d p hs hd => h.listed u d p ((hsoft u).symm.trans hs) hd,
      h.log.congr hper, h.times, h.startTimes⟩
    · by_cases hut : u = t
      · subst hut
        show ValidPeriod (c'.timer u).init_tick
        rw [hself]
        exact hvalid
      · show ValidPeriod (c'.timer u).init_tick
        rw [htimer u hut]
        exact h.period u
    · refine h.list.sublist (List.Sublist.refl _) (fun u hu => ?_) rfl (Nat.le_refl _)
      exact ⟨htimer u fun heq => hnot (heq ▸ hu), rfl, rfl⟩
    · show c'.PhaseOk
      have hok := h.phase
      unfold PhaseOk at hok ⊢
      cases hp : c.phase with
      | calling u =>
        simp only [hp] at hok
        dsimp only
        refine hok.imp id fun hrest => ?_
        obtain ⟨h1, h2, h3, h4⟩ := hrest
        refine ⟨h1, h2, (hsoft u).trans h3, ?_⟩
        by_cases hut : u = t
        · -- an inactive timer is a one-shot timer here
          subst hut
          cases hperiodic : (c.timer u).periodic with
          | true =>
            rw [hperiodic, if_pos rfl] at h4
            exact absurd (h4.1.symm.trans hact) (by decide)
          | false =>
            rw [hper u, hperiodic]
            rw [hperiodic] at h4
            exact h4
        · rw [htimer u hut]
          exact h4
      | _ =>
        simp only [hp] at hok
        dsimp only
        exact hok
  · rw [if_neg hguard] at hs
    cases hs

theorem TimerInv.tick (h : TimerInv c) (hs : c.tick = some c') : TimerInv c' := by
  unfold TimerSystem.tick at hs
  by_cases hphase : c.phase = .waiting
  · rw [if_pos hphase] at hs
    obtain rfl := Option.some.inj hs
    have hok := h.phase
    rw [PhaseOk, hphase] at hok
    refine ⟨?_, h.period, ⟨h.list.nodup, fun t ht => ?_, h.list.sorted⟩, hok.1, fun t d p hsoft hd => ?_,
      h.log, fun t d hd => Nat.le_succ_of_le (h.times t d hd),
      fun t at_tick period hm => Nat.le_succ_of_le (h.startTimes t at_tick period hm)⟩
    · show add32 c.store.rt_tick 1 = _
      rw [h.rt_tick]
      exact add32_mod c.now 1
    · obtain ⟨h1, h2, ⟨d, h3, h4, h5, h6⟩, h7⟩ := h.list.pending t ht
      have hlt := hok.2 t ht d _ h3
      exact ⟨h1, h2, ⟨d, h3, h4, hlt, by dsimp only; omega⟩, h7⟩
    · rcases h.listed t d p hsoft hd with hm | ⟨hp, -⟩
      · exact Or.inl hm
      · rw [hphase] at hp
        cases hp
  · rw [if_neg hphase] at hs
    cases hs

theorem TimerInv.check (h : TimerInv c) (hs : c.check = some c') : TimerInv c' := by
  unfold TimerSystem.check at hs
  by_cases hphase : c.phase = .ticked
  · rw [if_pos hphase] at hs
    obtain rfl := Option.some.inj hs
    have hok := h.phase
    rw [PhaseOk, hphase] at hok
    refine ⟨h.rt_tick, h.period, h.list.sublist (List.Sublist.refl _) (fun _ _ => ⟨rfl, rfl, rfl⟩) rfl (Nat.le_refl _),
      ⟨hok, rfl⟩, fun t d p hsoft hd => ?_, h.log, h.times, h.startTimes⟩
    rcases h.listed t d p hsoft hd with hm | ⟨hp, -⟩
    · exact Or.inl hm
    · rw [hphase] at hp
      cases hp
  · rw [if_neg hphase] at hs
    cases hs

/-- What is due is armed for now. -/
theorem TimerInv.reached_iff (h : TimerInv c) (ht : t ∈ c.store.rt_timer_list) {d p : Nat}
    (hd : armed t c.log = some (d, p)) :
    tickReached c.store.rt_tick (c.timer t).timeout_tick = true ↔ d = c.now := by
  obtain ⟨d', hd', htick, hle, hfar⟩ := (h.list.pending t ht).due
  obtain ⟨rfl, -⟩ := Prod.mk.inj (Option.some.inj (hd'.symm.trans hd))
  rw [htick, h.rt_tick]
  exact tickReached_iff hle hfar

/-- The check calls the timeout function of the first timer. -/
theorem TimerInv.fire {rest : List TimerId} (h : TimerInv c)
    (hphase : c.phase = .checking c.store.rt_tick) (hcons : c.store.rt_timer_list = t :: rest)
    (hdue : tickReached c.store.rt_tick (c.timer t).timeout_tick = true) :
    TimerInv { c with
      store := c.store.takeDue t
      phase := .calling t
      log := .fired t c.now (if (c.timer t).periodic then some (c.timer t).init_tick else none) ::
        c.log } := by
  let c' : TimerSystem := { c with
    store := c.store.takeDue t
    phase := .calling t
    log := .fired t c.now (if (c.timer t).periodic then some (c.timer t).init_tick else none) ::
      c.log }
  show c'.TimerInv
  have hin : t ∈ c.store.rt_timer_list := by rw [hcons]; exact List.mem_cons_self
  have hpend := h.list.pending t hin
  obtain ⟨d, hd, -⟩ := hpend.due
  obtain rfl := (h.reached_iff hin hd).mp hdue
  have hok := h.phase
  rw [PhaseOk, hphase] at hok
  have hother : ∀ u, u ≠ t → armed u c'.log = armed u c.log := fun u hut =>
    armed_fired_of_ne (Ne.symm hut)
  have hlists : c'.store.rt_timer_list = c.store.rt_timer_list.filter (· ≠ t) ∧
      c'.store.list = [t] ∧ c'.store.rt_tick = c.store.rt_tick := by
    have hlocal : t :: c.store.list.filter (· ≠ t) = [t] := by rw [hok.1]; rfl
    show (c.store.takeDue t).rt_timer_list = _ ∧ (c.store.takeDue t).list = _ ∧
      (c.store.takeDue t).rt_tick = _
    unfold Timers.takeDue
    dsimp only
    split
    · exact ⟨rfl, hlocal, rfl⟩
    · exact ⟨rfl, hlocal, rfl⟩
  have htimer : ∀ u, c'.timer u = if u = t ∧ (c.timer t).periodic = false then
      { c.timer u with activated := false } else c.timer u := by
    intro u
    show (c.store.takeDue t).timers u = _
    unfold Timers.takeDue
    dsimp only
    cases hper : (c.timer t).periodic with
    | true =>
      have hper' : ((c.store._rt_timer_remove t).timers t).periodic = true := hper
      rw [if_pos hper', if_neg (by simp)]
      rfl
    | false =>
      have hper' : ¬((c.store._rt_timer_remove t).timers t).periodic = true := by
        show ¬(c.timer t).periodic = true
        simp [hper]
      rw [if_neg hper']
      by_cases hut : u = t
      · subst hut
        rw [if_pos ⟨rfl, rfl⟩]
        exact Function.update_self ..
      · rw [if_neg fun hand => hut hand.1]
        exact Function.update_of_ne hut _ _
  have htimer_ne : ∀ u, u ≠ t → c'.timer u = c.timer u := fun u hut => by
    rw [htimer, if_neg fun hand => hut hand.1]
  have hfixed : ∀ u, Timers.Fixed (c.timer u) (c'.timer u) := fun u => by
    rw [htimer]
    split
    · exact ⟨rfl, rfl, rfl⟩
    · exact ⟨rfl, rfl, rfl⟩
  have hmem : ∀ u, u ∈ c'.store.rt_timer_list ↔ u ∈ c.store.rt_timer_list ∧ u ≠ t := fun u => by
    rw [hlists.1]
    exact mem_filter_ne
  refine ⟨hlists.2.2.trans h.rt_tick, fun u => (hfixed u).init_tick ▸ h.period u, ?_, ?_,
    fun u d p hsoft hd' => ?_, ?_, fun u d hd' => ?_, fun u at_tick period hu => ?_⟩
  · refine h.list.sublist (by rw [hlists.1]; exact List.filter_sublist) (fun u hu => ?_) rfl
      (Nat.le_refl _)
    have hut := ((hmem u).mp hu).2
    exact ⟨htimer_ne u hut, hother u hut, rfl⟩
  · refine Or.inr ⟨hlists.2.1, fun hm => ((hmem t).mp hm).2 rfl, (hfixed t).soft.trans hpend.soft, ?_⟩
    rw [(hfixed t).periodic, (hfixed t).init_tick]
    cases hper : (c.timer t).periodic with
    | true =>
      rw [if_pos rfl, htimer, if_neg (by simp [hper])]
      refine ⟨hpend.activated, ?_⟩
      show armed t (.fired t c.now _ :: c.log) = _
      rw [armed, if_pos rfl, if_pos hper]
      rfl
    | false =>
      rw [if_neg (by decide)]
      show armed t (.fired t c.now _ :: c.log) = _
      rw [armed, if_pos rfl, if_neg (by simp [hper])]
      rfl
  · by_cases hut : u = t
    · subst hut
      exact Or.inr ⟨rfl, by rw [hlists.2.1]; exact List.mem_cons_self⟩
    · rcases h.listed u d p ((hfixed u).soft.symm.trans hsoft) ((hother u hut).symm.trans hd') with
        hm | ⟨hp, -⟩
      · exact Or.inl ((hmem u).mpr ⟨hm, hut⟩)
      · rw [hphase] at hp
        cases hp
  · refine LogOk.congr ⟨⟨_, hd, rfl⟩, h.log⟩ fun u => (hfixed u).periodic
  · by_cases hut : u = t
    · subst hut
      have hd' : d ∈ c.now :: firings u c.log := by
        have heq : firings u c'.log = c.now :: firings u c.log := if_pos rfl
        rwa [heq] at hd'
      rcases List.mem_cons.mp hd' with rfl | hd'
      · exact Nat.le_refl _
      · exact h.times u d hd'
    · have heq : firings u c'.log = firings u c.log := firings_fired_of_ne (Ne.symm hut)
      rw [heq] at hd'
      exact h.times u d hd'
  · exact h.startTimes u at_tick period (by simpa using List.mem_of_ne_of_mem (by simp) hu)

/-- The first timer is not due, nor is any other. -/
theorem TimerInv.later (h : TimerInv c) (hphase : c.phase = .checking c.store.rt_tick)
    (hnone : c.store.nextDue c.store.rt_tick = none) : TimerInv { c with phase := .waiting } := by
  have hok := h.phase
  rw [PhaseOk, hphase] at hok
  refine ⟨h.rt_tick, h.period, h.list.sublist (List.Sublist.refl _) (fun _ _ => ⟨rfl, rfl, rfl⟩) rfl
    (Nat.le_refl _), ⟨hok.1, fun u hu d p hd => ?_⟩, fun u d p hsoft hd => ?_, h.log, h.times,
    h.startTimes⟩
  · have hu : u ∈ c.store.rt_timer_list := hu
    unfold Timers.nextDue at hnone
    cases hcons : c.store.rt_timer_list with
    | nil =>
      rw [hcons] at hu
      cases hu
    | cons t rest =>
      have hin : t ∈ c.store.rt_timer_list := by rw [hcons]; exact List.mem_cons_self
      simp only [hcons] at hnone
      obtain ⟨e, he, -, hle, -⟩ := (h.list.pending t hin).due
      have hne : e ≠ c.now := fun heq => by
        have hreached := (h.reached_iff hin he).mpr heq
        have hreached' : tickReached c.store.rt_tick (c.store.timers t).timeout_tick = true := hreached
        rw [if_pos hreached'] at hnone
        cases hnone
      have hlt : c.now < e := by omega
      rw [hcons] at hu
      rcases List.mem_cons.mp hu with rfl | hu
      · obtain ⟨rfl, -⟩ := Prod.mk.inj (Option.some.inj (he.symm.trans hd))
        exact hlt
      · have hsorted := h.list.sorted
        rw [hcons] at hsorted
        rcases (List.pairwise_cons.mp hsorted).1 u hu e _ d p he hd with hlt' | ⟨heq, -⟩
        · exact Nat.lt_trans hlt hlt'
        · exact heq ▸ hlt
  · rcases h.listed u d p hsoft hd with hm | ⟨hp, -⟩
    · exact Or.inl hm
    · rw [hphase] at hp
      cases hp

theorem TimerInv.turn (h : TimerInv c) (hs : c.turn = some c') : TimerInv c' := by
  unfold TimerSystem.turn at hs
  cases hphase : c.phase with
  | checking current_tick =>
    have hok := h.phase
    rw [PhaseOk, hphase] at hok
    obtain ⟨-, rfl⟩ := hok
    simp only [hphase] at hs
    cases hnext : c.store.nextDue c.store.rt_tick with
    | none =>
      rw [hnext] at hs
      obtain rfl := Option.some.inj hs
      exact h.later hphase hnext
    | some t =>
      rw [hnext] at hs
      obtain rfl := Option.some.inj hs
      unfold Timers.nextDue at hnext
      cases hcons : c.store.rt_timer_list with
      | nil => simp [hcons] at hnext
      | cons u rest =>
        simp only [hcons] at hnext
        split at hnext
        · obtain rfl := Option.some.inj hnext
          exact h.fire hphase hcons ‹_›
        · cases hnext
  | _ => simp [hphase] at hs

theorem filter_filter_ne (l : List TimerId) :
    (l.filter (· ≠ t)).filter (· ≠ t) = l.filter (· ≠ t) := by
  rw [List.filter_filter]
  simp

/-- A start of a timer that was taken out of its list just before. -/
theorem starts_again {s store : Timers} (hs : Timers.Starts ((s._rt_timer_remove t).setTimer t
    fun timer => { timer with activated := false }) store t) : Timers.Starts s store t := by
  refine ⟨hs.rt_tick, fun u hut => ?_, ?_, ?_, fun hsoft => ?_, fun hsoft => ?_⟩
  · exact (hs.other u hut).trans (Timers.setTimer_of_ne _ _ hut)
  · rw [hs.self, Timers.setTimer_self]
    rfl
  · exact hs.list.trans (filter_filter_ne _)
  · refine (hs.soft ?_).trans (filter_filter_ne _)
    rw [Timers.setTimer_self]
    exact hsoft
  · refine (hs.hard ?_).trans ?_
    · rw [Timers.setTimer_self]
      exact hsoft
    · exact congrArg (insertStable _ t) (filter_filter_ne _)

/-- A periodic timer is started again, unless its timeout function did so or stopped it. -/
theorem TimerInv.returns (h : TimerInv c) (hs : c.returns = some c') : TimerInv c' := by
  unfold TimerSystem.returns at hs
  cases hphase : c.phase with
  | calling t =>
    simp only [hphase] at hs
    obtain ⟨store, hafter, hs⟩ := Option.bind_eq_some_iff.mp hs
    obtain rfl := Option.some.inj hs
    have hok := h.phase
    rw [PhaseOk, hphase] at hok
    unfold Timers.afterTimeout at hafter
    by_cases hnil : c.store.list = []
    · rw [if_pos hnil] at hafter
      obtain rfl := Option.some.inj hafter
      have hnot : c.store.startsAgain t = false := by simp [Timers.startsAgain, hnil]
      rw [if_neg (by simp [hnot])]
      refine ⟨h.rt_tick, h.period, h.list.sublist (List.Sublist.refl _) (fun _ _ => ⟨rfl, rfl, rfl⟩)
        rfl (Nat.le_succ _), ⟨hnil, rfl⟩, fun u d p hsoft hd => ?_, h.log, h.times, h.startTimes⟩
      rcases h.listed u d p hsoft hd with hm | ⟨-, hm⟩
      · exact Or.inl hm
      · rw [hnil] at hm
        cases hm
    · obtain ⟨hcons, hout, hsoft, hcase⟩ := hok.resolve_left hnil
      rw [if_neg hnil] at hafter
      have hfilter : c.store.list.filter (· ≠ t) = [] := by simp [hcons]
      -- no other timer is in the local list
      have hlisted : ∀ u d p, u ≠ t → (c.timer u).soft = false → armed u c.log = some (d, p) →
          u ∈ c.store.rt_timer_list := by
        intro u d p hut hsoft hd
        rcases h.listed u d p hsoft hd with hm | ⟨-, hm⟩
        · exact hm
        · rw [hcons] at hm
          exact absurd (List.mem_singleton.mp hm) hut
      cases hagain : c.store.startsAgain t with
      | true =>
        simp only [hagain, if_true] at hafter ⊢
        have hst := starts_again (Timers.rt_timer_start_starts hafter)
        have hboth : (c.timer t).periodic = true ∧ (c.timer t).activated = true := by
          have hand := of_decide_eq_true hagain
          exact hand.2
        rw [if_pos hboth.1] at hcase
        have hlist : ∀ u, u ∈ store.rt_timer_list ↔ u = t ∨ u ∈ c.store.rt_timer_list ∧ u ≠ t := by
          intro u
          rw [hst.hard hsoft, mem_insertStable, mem_filter_ne]
        refine ⟨hst.rt_tick.trans h.rt_tick, fun u => (hst.fixed u).init_tick ▸ h.period u, ?_, ?_,
          fun u d p hsoft hd => ?_, h.log.congr fun u => (hst.fixed u).periodic, h.times, h.startTimes⟩
        · exact h.list.started hst h.rt_tick (h.period t) hsoft hcase.2
            (fun u hut => ⟨rfl, Function.update_of_ne hut _ _⟩) rfl (Function.update_self ..) rfl
        · exact ⟨hst.list.trans hfilter, rfl⟩
        · refine Or.inl ((hlist u).mpr ?_)
          by_cases hut : u = t
          · exact Or.inl hut
          · exact Or.inr ⟨hlisted u d p hut ((hst.fixed u).soft.symm.trans hsoft) hd, hut⟩
      | false =>
        simp only [hagain, Bool.false_eq_true, if_false] at hafter ⊢
        obtain rfl := Option.some.inj hafter
        have hlist : c.store.rt_timer_list.filter (· ≠ t) = c.store.rt_timer_list := by
          apply List.filter_eq_self.mpr
          intro u hu
          have hut : u ≠ t := fun heq => hout (heq ▸ hu)
          simpa using hut
        have hone : (c.timer t).periodic = false := by
          by_contra hper
          have hper : (c.timer t).periodic = true := by simpa using hper
          rw [if_pos hper] at hcase
          exact absurd (hagain.symm.trans (decide_eq_true ⟨hnil, hper, hcase.1⟩)) (by decide)
        rw [hone, if_neg (by decide)] at hcase
        refine ⟨h.rt_tick, h.period, h.list.sublist List.filter_sublist (fun _ _ => ⟨rfl, rfl, rfl⟩)
          rfl (Nat.le_succ _), ⟨hfilter, rfl⟩, fun u d p hsoft hd => Or.inl ?_, h.log, h.times,
          h.startTimes⟩
        show u ∈ c.store.rt_timer_list.filter (· ≠ t)
        rw [hlist]
        refine hlisted u d p ?_ hsoft hd
        rintro rfl
        exact absurd (hd.symm.trans hcase) (by simp)
  | _ => simp [hphase] at hs

theorem TimerInv.step {l : TimerStep} (h : TimerInv c) (hs : c.step l = some c') : TimerInv c' := by
  cases l with
  | start t => exact h.start hs
  | stop t =>
    obtain rfl := Option.some.inj hs
    exact h.stop t
  | stopLate t =>
    obtain rfl := Option.some.inj hs
    exact h.stopped t
  | setTime t time => exact h.setTime hs
  | tick => exact h.tick hs
  | check => exact h.check hs
  | turn => exact h.turn hs
  | returns => exact h.returns hs

theorem reachable_timerInv (hr : timerMachine.Reachable c) : TimerInv c := by
  apply hr.invariant
  · exact fun c h => h.timerInv
  · exact fun c l c' _ h hs => h.step hs

/-! ### The end of a check -/

/-- A timer that is armed for now is in the list. -/
theorem TimerInv.mem_of_armed {p : Nat} (h : TimerInv c) (hsoft : (c.timer t).soft = false)
    (hd : armed t c.log = some (c.now, p)) : t ∈ c.store.rt_timer_list := by
  rcases h.listed t c.now p hsoft hd with hm | ⟨hphase, hm⟩
  · exact hm
  · have hok := h.phase
    rw [PhaseOk, hphase] at hok
    rcases hok with hnil | ⟨-, -, -, hcase⟩
    · rw [hnil] at hm
      cases hm
    · have hperiod := h.period t
      rw [validPeriod_iff] at hperiod
      split at hcase
      · obtain ⟨hnow, -⟩ := Prod.mk.inj (Option.some.inj (hd.symm.trans hcase.2))
        omega
      · exact absurd (hd.symm.trans hcase) (by simp)

/-- Being due, in terms of the log. -/
theorem TimerInv.due_iff (h : TimerInv c) (ht : t ∈ c.store.rt_timer_list) :
    tickReached c.store.rt_tick (c.timer t).timeout_tick = true ↔ ∃ p, armed t c.log = some (c.now, p) := by
  obtain ⟨d, hd, -⟩ := (h.list.pending t ht).due
  rw [h.reached_iff ht hd]
  constructor
  · rintro rfl
    exact ⟨_, hd⟩
  · rintro ⟨p, hp⟩
    exact (Prod.mk.inj (Option.some.inj (hd.symm.trans hp))).1

/-- A step of a check, or of a timeout function: no timer becomes due. -/
structure Calm (c c' : TimerSystem) : Prop where
  now : c'.now = c.now
  soft : ∀ u, (c'.timer u).soft = (c.timer u).soft
  armed : ∀ u p, armed u c'.log = some (c.now, p) → armed u c.log = some (c.now, p)

/-- What is due was due before. -/
theorem Calm.due (hc : Calm c c') (h : TimerInv c) (h' : TimerInv c') (hu : u ∈ c'.store.rt_timer_list)
    (hdue : tickReached c'.store.rt_tick (c'.timer u).timeout_tick = true) :
    u ∈ c.store.rt_timer_list ∧ tickReached c.store.rt_tick (c.timer u).timeout_tick = true := by
  obtain ⟨p, hp⟩ := (h'.due_iff hu).mp hdue
  rw [hc.now] at hp
  have hd := hc.armed u p hp
  have hm := h.mem_of_armed ((hc.soft u).symm.trans (h'.list.pending u hu).soft) hd
  exact ⟨hm, (h.due_iff hm).mpr ⟨p, hd⟩⟩

theorem Calm.count_le (hc : Calm c c') (h : TimerInv c) (h' : TimerInv c') :
    c'.dueCount ≤ c.dueCount := by
  refine (List.Nodup.subperm (h'.list.nodup.filter _) fun u hu => ?_).length_le
  obtain ⟨hu, hdue⟩ := List.mem_filter.mp hu
  exact List.mem_filter.mpr (hc.due h h' hu hdue)

/-- A timer that was due has left the list. -/
theorem Calm.count_lt (hc : Calm c c') (h : TimerInv c) (h' : TimerInv c')
    (ht : t ∈ c.store.rt_timer_list)
    (hdue : tickReached c.store.rt_tick (c.timer t).timeout_tick = true)
    (hout : t ∉ c'.store.rt_timer_list) : c'.dueCount < c.dueCount := by
  have hnd : (t :: c'.store.rt_timer_list.filter fun u =>
      tickReached c'.store.rt_tick (c'.timer u).timeout_tick).Nodup :=
    List.nodup_cons.mpr ⟨fun hm => hout (List.mem_filter.mp hm).1, h'.list.nodup.filter _⟩
  refine (List.Nodup.subperm hnd fun u hu => ?_).length_le
  rcases List.mem_cons.mp hu with rfl | hu
  · exact List.mem_filter.mpr ⟨ht, hdue⟩
  · obtain ⟨hu, hreached⟩ := List.mem_filter.mp hu
    exact List.mem_filter.mpr (hc.due h h' hu hreached)

theorem setTimer_soft {s : Timers} (f : Timer → Timer) (u : TimerId)
    (hf : (f (s.timers t)).soft = (s.timers t).soft) : ((s.setTimer t f).timers u).soft = (s.timers u).soft := by
  by_cases hut : u = t
  · subst hut
    rw [Timers.setTimer_self]
    exact hf
  · rw [Timers.setTimer_of_ne s f hut]

theorem TimerInv.start_calm (h : TimerInv c) (hs : c.start t = some c') : Calm c c' := by
  obtain ⟨store, hstart, hs⟩ := Option.bind_eq_some_iff.mp hs
  obtain rfl := Option.some.inj hs
  refine ⟨rfl, fun u => ((Timers.rt_timer_start_starts hstart).fixed u).soft, fun u p hp => ?_⟩
  by_cases hut : t = u
  · subst hut
    have hself : armed t (.started t c.now (c.timer t).init_tick :: c.log) =
        some (c.now + (c.timer t).init_tick, (c.timer t).init_tick) := if_pos rfl
    obtain ⟨hnow, -⟩ := Prod.mk.inj (Option.some.inj (hself.symm.trans hp))
    have hperiod := h.period t
    rw [validPeriod_iff] at hperiod
    omega
  · rwa [armed_started_of_ne hut] at hp

theorem stopped_calm {store : Timers} (hsoft : ∀ u, (store.timers u).soft = (c.timer u).soft) :
    Calm c (c.stopped t store) := by
  refine ⟨rfl, hsoft, fun u p hp => ?_⟩
  have hp : armed u (if (c.timer t).activated then .stopped t :: c.log else c.log) =
      some (c.now, p) := hp
  split at hp
  · rw [armed] at hp
    split at hp
    · cases hp
    · exact hp
  · exact hp

theorem rt_timer_stop_soft (s : Timers) (t u : TimerId) :
    ((s.rt_timer_stop t).1.timers u).soft = (s.timers u).soft := by
  unfold Timers.rt_timer_stop
  split
  · rfl
  · exact setTimer_soft (s := s._rt_timer_remove t) (fun timer => { timer with activated := false }) u rfl

theorem returns_calm (hs : c.returns = some c') : Calm c c' := by
  unfold TimerSystem.returns at hs
  cases hphase : c.phase with
  | calling t =>
    simp only [hphase] at hs
    obtain ⟨store, hafter, hs⟩ := Option.bind_eq_some_iff.mp hs
    obtain rfl := Option.some.inj hs
    refine ⟨rfl, fun u => ?_, fun u p hp => hp⟩
    show (store.timers u).soft = (c.store.timers u).soft
    unfold Timers.afterTimeout at hafter
    dsimp only at hafter
    split at hafter
    · rw [Option.some.inj hafter]
    · split at hafter
      · exact ((starts_again (Timers.rt_timer_start_starts hafter)).fixed u).soft
      · rw [← Option.some.inj hafter]
        rfl
  | _ => simp [hphase] at hs

/-- A turn is the last one, or a timer that was due has left the list. -/
theorem TimerInv.turn_calm (h : TimerInv c) (hs : c.turn = some c') :
    Calm c c' ∧ (c'.phase = .waiting ∨ c'.dueCount < c.dueCount) := by
  have h' := h.turn hs
  unfold TimerSystem.turn at hs
  cases hphase : c.phase with
  | checking current_tick =>
    have hok := h.phase
    rw [PhaseOk, hphase] at hok
    obtain ⟨-, rfl⟩ := hok
    simp only [hphase] at hs
    cases hnext : c.store.nextDue c.store.rt_tick with
    | none =>
      rw [hnext] at hs
      obtain rfl := Option.some.inj hs
      exact ⟨⟨rfl, fun u => rfl, fun u p hp => hp⟩, Or.inl rfl⟩
    | some t =>
      rw [hnext] at hs
      obtain rfl := Option.some.inj hs
      have hdue : t ∈ c.store.rt_timer_list ∧
          tickReached c.store.rt_tick (c.timer t).timeout_tick = true := by
        unfold Timers.nextDue at hnext
        cases hcons : c.store.rt_timer_list with
        | nil => simp [hcons] at hnext
        | cons u rest =>
          simp only [hcons] at hnext
          split at hnext
          · obtain rfl := Option.some.inj hnext
            exact ⟨List.mem_cons_self, ‹_›⟩
          · cases hnext
      obtain ⟨d, hd, -⟩ := (h.list.pending t hdue.1).due
      obtain rfl := (h.reached_iff hdue.1 hd).mp hdue.2
      have hperiod := h.period t
      rw [validPeriod_iff] at hperiod
      have hlist : (c.store.takeDue t).rt_timer_list = c.store.rt_timer_list.filter (· ≠ t) := by
        unfold Timers.takeDue
        dsimp only
        split <;> rfl
      have hcalm : Calm c { c with
          store := c.store.takeDue t
          phase := .calling t
          log := .fired t c.now (if (c.timer t).periodic then some (c.timer t).init_tick else none) ::
            c.log } := by
        refine ⟨rfl, fun u => ?_, fun u p hp => ?_⟩
        · show ((c.store.takeDue t).timers u).soft = (c.store.timers u).soft
          unfold Timers.takeDue
          dsimp only
          split
          · rfl
          · exact setTimer_soft (s := c.store._rt_timer_remove t)
              (fun timer => { timer with activated := false }) u rfl
        · by_cases hut : t = u
          · subst hut
            rw [armed, if_pos rfl] at hp
            obtain ⟨q, hq, heq⟩ := Option.map_eq_some_iff.mp hp
            obtain ⟨hnow, -⟩ := Prod.mk.inj heq
            split at hq
            · obtain rfl := Option.some.inj hq
              omega
            · cases hq
          · rwa [armed_fired_of_ne hut] at hp
      refine ⟨hcalm, Or.inr (hcalm.count_lt h h' hdue.1 hdue.2 fun hm => ?_)⟩
      have hm : t ∈ (c.store.takeDue t).rt_timer_list := hm
      rw [hlist] at hm
      exact (mem_filter_ne.mp hm).2 rfl
  | _ => simp [hphase] at hs

theorem TimerInv.calm {l : TimerStep} (h : TimerInv c) (hs : c.step l = some c') (hl : l ≠ .tick) :
    Calm c c' ∧ (l = .turn → c'.phase = .waiting ∨ c'.dueCount < c.dueCount) := by
  cases l with
  | start t => exact ⟨h.start_calm hs, fun h => by cases h⟩
  | stop t =>
    obtain rfl := Option.some.inj hs
    exact ⟨stopped_calm fun u => rt_timer_stop_soft c.store t u, fun h => by cases h⟩
  | stopLate t =>
    obtain rfl := Option.some.inj hs
    exact ⟨stopped_calm fun u => setTimer_soft (s := c.store._rt_timer_remove t)
      (fun timer => { timer with activated := false }) u rfl,
      fun h => by cases h⟩
  | setTime t time =>
    have hs : c.setTime t time = some c' := hs
    unfold TimerSystem.setTime at hs
    split at hs
    · obtain rfl := Option.some.inj hs
      have hsoft := fun u => setTimer_soft (s := c.store) (t := t)
        (fun timer => { timer with init_tick := time }) u rfl
      exact ⟨⟨rfl, hsoft, fun u p hp => hp⟩, fun h => by cases h⟩
    · cases hs
  | tick => exact absurd rfl hl
  | check =>
    have hs : c.check = some c' := hs
    unfold TimerSystem.check at hs
    split at hs
    · obtain rfl := Option.some.inj hs
      exact ⟨⟨rfl, fun u => rfl, fun u p hp => hp⟩, fun h => by cases h⟩
    · cases hs
  | turn =>
    obtain ⟨hcalm, hend⟩ := h.turn_calm hs
    exact ⟨hcalm, fun _ => hend⟩
  | returns => exact ⟨returns_calm hs, fun h => by cases h⟩

/-- Between two checks an armed timer has yet to fire. -/
theorem TimerInv.armed_later {d p : Nat} (h : TimerInv c) (hphase : c.phase = .waiting)
    (hsoft : (c.timer t).soft = false) (hd : armed t c.log = some (d, p)) : c.now < d := by
  have hok := h.phase
  rw [PhaseOk, hphase] at hok
  rcases h.listed t d p hsoft hd with hm | ⟨hcalling, -⟩
  · exact hok.2 t hm d p hd
  · rw [hphase] at hcalling
    cases hcalling

end TimerSystem

theorem timer_list {c : TimerSystem} (hr : timerMachine.Reachable c) : TimerContract c := by
  have h := TimerSystem.reachable_timerInv hr
  have hfired : ∀ {late entry early t}, c.log = late ++ entry :: early → ∀ d ∈ firings t late,
      d ≤ c.now := fun {late entry early t} hlog d hd => by
    refine h.times t d ?_
    rw [hlog, firings_append]
    exact List.mem_append_left _ hd
  refine ⟨h.rt_tick, ?_, ?_, ?_, ?_, ?_, ?_, ?_⟩
  · refine h.list.sorted.imp_of_mem fun {t u} ht hu hb => ?_
    obtain ⟨d, hd, htick, hle, hfar⟩ := (h.list.pending t ht).due
    obtain ⟨e, he, hutick, hule, hufar⟩ := (h.list.pending u hu).due
    rw [htick, hutick]
    rcases hb d _ e _ hd he with hlt | ⟨rfl, horder⟩
    · rw [sub32_mod (Nat.le_of_lt hlt) (by omega), half_tick]
      exact ⟨by omega, fun heq => by omega⟩
    · rw [sub32_mod (Nat.le_refl d) (by omega), half_tick]
      exact ⟨by omega, fun _ => horder⟩
  · intro late t at_tick again early hlog
    have hok := (hlog ▸ h.log).drop
    obtain ⟨⟨period, harmed, -⟩, -⟩ := hok
    exact ⟨period, harmed⟩
  · intro late t at_tick period early hlog hu hsoft hper hphase
    rcases (hlog ▸ h.log).one_shot hu hper with ⟨hf, ha⟩ | ⟨hf, -⟩
    · have hlt := h.armed_later hphase hsoft (hlog.symm ▸ ha)
      rw [hf, if_neg (by omega)]
    · have hle := hfired hlog (at_tick + period) (by rw [hf]; exact List.mem_cons_self)
      rw [hf, if_pos hle]
  · intro late t at_tick period early hlog hu hsoft hper hphase
    obtain ⟨n, hf, ha⟩ := (hlog ▸ h.log).periods hu hper
    have hlt := h.armed_later hphase hsoft (hlog.symm ▸ ha)
    have hstart := h.startTimes t at_tick period (by simp [hlog])
    have hpos : 0 < period := (hlog ▸ h.log).drop.1
    have hlast : n * period ≤ c.now - at_tick := by
      cases n with
      | zero => simp
      | succ n =>
        have hmem : at_tick + (n + 1) * period ∈ firings t late := by
          rw [hf, List.mem_reverse, List.mem_map]
          exact ⟨n, List.mem_range.mpr (Nat.lt_succ_self n), rfl⟩
        have hle := hfired hlog _ hmem
        omega
    have hn : (c.now - at_tick) / period = n := by
      apply Nat.div_eq_of_lt_le
      · exact hlast
      · have heq : (n + 1) * period = Nat.succ n * period := rfl
        omega
    rw [hf, hn]
  · intro late t early hlog hu
    exact ((hlog ▸ h.log).stopped hu).1
  · intro hphase t ht
    obtain ⟨d, hd, -⟩ := (h.list.pending t ht).due
    have hlt := h.armed_later hphase (h.list.pending t ht).soft hd
    by_contra hreached
    have heq := (h.reached_iff ht hd).mp (by simpa using hreached)
    omega
  · exact fun l c' hs hl => ⟨(h.calm hs hl).1.count_le h (h.step hs), (h.calm hs hl).2⟩

/-- Four timers: a one-shot and a periodic one of two ticks, one for the callback to start, and one
for it to stop. -/
def fourTimers : TimerSystem :=
  { store :=
      { rt_tick := 2 ^ 32 - 1
        timers := fun t => ⟨false, t = 1, false, 0, 2⟩
        rt_timer_list := [], rt_soft_timer_list := [], list := [] }
    now := 2 ^ 32 - 1, phase := .waiting, log := [], starts := 0, startOrder := fun _ => 0 }

/-- While the tick counter wraps, the timeout function of the first timer stops one timer that is
due as well and starts another. -/
def twoTicks : List TimerStep :=
  [.start 0, .start 1, .start 3, .tick, .check, .turn, .tick, .check, .turn, .stop 3, .start 2,
    .returns, .turn, .returns, .turn]

theorem timer_list_wraps : ∃ c, Machine.runs TimerSystem.step fourTimers twoTicks = some c ∧
    c.store.rt_tick = 1 ∧ c.store.rt_timer_list = [2, 1] ∧ firings 0 c.log = [2 ^ 32 + 1] ∧
      firings 3 c.log = [] ∧ TimerContract c := by
  have hrun : ∃ c, Machine.runs TimerSystem.step fourTimers twoTicks = some c ∧
      c.store.rt_tick = 1 ∧ c.store.rt_timer_list = [2, 1] ∧ firings 0 c.log = [2 ^ 32 + 1] ∧
      firings 3 c.log = [] := by
    decide +kernel
  obtain ⟨c, hc, htick, hlist, hfired, hstopped⟩ := hrun
  have hfresh : fourTimers.Fresh :=
    ⟨rfl, fun _ => (show 1 ≤ 2 ∧ 2 ≤ RT_TICK_MAX / 2 - 1 by decide), fun _ => rfl, ⟨rfl, rfl, rfl⟩, rfl, rfl⟩
  refine ⟨c, hc, htick, hlist, hfired, hstopped, timer_list ?_⟩
  exact (Machine.Reachable.start hfresh).runs (fun _ _ _ hs => hs) hc

end Ab32Vg1.Kernel
