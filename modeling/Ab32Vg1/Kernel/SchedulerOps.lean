import Ab32Vg1.Kernel.SchedulerInv

/-! Each operation of the scheduler and of the threads keeps the invariant of the scheduler. -/

namespace Ab32Vg1.Kernel

open Rtos

section Frame

variable {s s' : Rtos} {t : Tid} {x c : Option Tid}

/-- The invariant is about the control blocks, the lists and the group. -/
theorem SchedInv.congr (h : SchedInv s x c) (h1 : s'.threads = s.threads)
    (h2 : s'.rt_thread_priority_table = s.rt_thread_priority_table)
    (h3 : s'.rt_thread_ready_priority_group = s.rt_thread_ready_priority_group)
    (h4 : s'.rt_thread_defunct = s.rt_thread_defunct) (h5 : s'.suspend_thread = s.suspend_thread) :
    SchedInv s' x c := by
  obtain ⟨hthread, hun, hgroup, hn1, hn2, hn3, hn4⟩ := h
  refine ⟨fun u hu => ?_, fun u hu => ?_, ?_, ?_, ?_, ?_, ?_⟩
  · obtain ⟨i1, i2, i3, i4, i5, i6, i7, i8, i9, i10, i11⟩ := hthread u hu
    constructor <;> simp only [h1, h2, h4, h5] <;> assumption
  · obtain ⟨i1, i2, i3⟩ := hun u hu
    constructor <;> simp only [h2, h4, h5] <;> assumption
  all_goals simp only [h2, h3, h4, h5]; assumption

/-- A running thread is in no list, so it may float. -/
theorem SchedInv.float (h : SchedInv s none (some t)) (hrun : (s.threads t).stat = .RUNNING) :
    SchedInv s (some t) none where
  thread u hu := by
    obtain ⟨h1, h2, h3, h4, h5, h6, h7, h8, h9, h10, h11⟩ := h.thread u (by simp)
    refine ⟨h1, h2, h3, h4, h5, h6, h7, fun hr => ?_, fun hc => (by cases hc), h10, h11⟩
    exact absurd (h8 hr).symm hu
  unlisted u hu := by
    obtain rfl := Option.some.inj hu
    obtain ⟨h1, h2, h3, h4, h5, h6, h7, h8, h9, h10, h11⟩ := h.thread t (by simp)
    refine ⟨fun p hp => ?_, fun l hl => ?_, fun hd => ?_⟩
    · rw [hrun] at h5
      exact absurd (h5 p hp).1 (by simp)
    · rw [hrun] at h6
      exact absurd (h6 l hl) (by simp)
    · rw [hrun] at h7
      exact absurd (h7 hd).1 (by simp)
  group := h.group
  table_nodup := h.table_nodup
  suspend_nodup := h.suspend_nodup
  suspend_unique := h.suspend_unique
  defunct_nodup := h.defunct_nodup

/-- Without a running thread no thread needs to be the current one. -/
theorem SchedInv.vacate (h : SchedInv s none (some t)) (hrun : (s.threads t).stat ≠ .RUNNING) :
    SchedInv s none none where
  thread u hu := by
    obtain ⟨h1, h2, h3, h4, h5, h6, h7, h8, h9, h10, h11⟩ := h.thread u hu
    refine ⟨h1, h2, h3, h4, h5, h6, h7, fun hr => ?_, fun hc => (by cases hc), h10, h11⟩
    obtain rfl := Option.some.inj (h8 hr)
    exact absurd hr hrun
  unlisted u hu := by simp at hu
  group := h.group
  table_nodup := h.table_nodup
  suspend_nodup := h.suspend_nodup
  suspend_unique := h.suspend_unique
  defunct_nodup := h.defunct_nodup

/-- A floating thread may become the current one. -/
theorem SchedInv.occupy (h : SchedInv s (some t) none) : SchedInv s (some t) (some t) where
  thread u hu := by
    obtain ⟨h1, h2, h3, h4, h5, h6, h7, h8, h9, h10, h11⟩ := h.thread u hu
    exact ⟨h1, h2, h3, h4, h5, h6, h7, fun hr => (by cases h8 hr), fun hc => absurd hc.symm hu, h10, h11⟩
  unlisted := h.unlisted
  group := h.group
  table_nodup := h.table_nodup
  suspend_nodup := h.suspend_nodup
  suspend_unique := h.suspend_unique
  defunct_nodup := h.defunct_nodup

/-- A change of a control block that the lists do not depend on. -/
theorem SchedInv.touch (h : SchedInv s none c) {f : Thread → Thread}
    (hst : (f (s.threads t)).stat = (s.threads t).stat)
    (hp : (f (s.threads t)).current_priority = (s.threads t).current_priority)
    (hi : (f (s.threads t)).init_priority = (s.threads t).init_priority)
    (hm : (f (s.threads t)).number_mask = (s.threads t).number_mask)
    (hth : (f (s.threads t)).is_thread = (s.threads t).is_thread)
    (htm : (f (s.threads t)).thread_timer.activated = true → (s.threads t).stat = .SUSPEND) :
    SchedInv (s.setThread t f) none c where
  thread u hu := by
    obtain ⟨h1, h2, h3, h4, h5, h6, h7, h8, h9, h10, h11⟩ := h.thread u hu
    by_cases hut : u = t
    · subst hut
      constructor <;> simp only [setThread_self, setThread_table, setThread_suspend,
        setThread_defunct, hst, hp, hi, hm, hth] <;> assumption
    · constructor <;> simp only [setThread_of_ne s t f hut] <;> assumption
  unlisted u hu := by simp at hu
  group := h.group
  table_nodup := h.table_nodup
  suspend_nodup := h.suspend_nodup
  suspend_unique := h.suspend_unique
  defunct_nodup := h.defunct_nodup

end Frame

/-! ### `rt_schedule` -/

section Schedule

variable {s s' : Rtos} {t : Tid}

/-- What a call of `rt_schedule` does. -/
theorem rt_schedule_cases (h : s.rt_schedule = some s') :
    (s' = s ∧ (s.rt_scheduler_lock_nest ≠ 0 ∨ s.rt_thread_ready_priority_group = 0)) ∨
    ∃ next p cur, s.rt_scheduler_lock_nest = 0 ∧ s.rt_thread_ready_priority_group ≠ 0 ∧
      s.get_highest_priority_thread = some (next, p) ∧ s.rt_current_thread = some cur ∧
      (((s.threads cur).stat = .RUNNING ∧ keepsRunning (s.threads cur) p ∧
          s' = (s.setThread cur fun th => { th with stat_yield := false }).finishSchedule
            cur cur p false) ∨
        ((s.threads cur).stat = .RUNNING ∧ ¬keepsRunning (s.threads cur) p ∧
          s' = (s.setThread cur fun th => { th with stat_yield := false }).finishSchedule
            cur next p true) ∨
        ((s.threads cur).stat ≠ .RUNNING ∧ s' = s.finishSchedule cur next p false)) := by
  unfold rt_schedule at h
  by_cases hlock : s.rt_scheduler_lock_nest = 0
  · rw [if_pos hlock] at h
    by_cases hgroup : s.rt_thread_ready_priority_group ≠ 0
    · rw [if_pos hgroup] at h
      obtain ⟨⟨next, p⟩, hnext, h⟩ := Option.bind_eq_some_iff.mp h
      obtain ⟨cur, hcur, h⟩ := Option.bind_eq_some_iff.mp h
      refine Or.inr ⟨next, p, cur, hlock, hgroup, hnext, hcur, ?_⟩
      by_cases hrun : (s.threads cur).stat = .RUNNING
      · simp only [if_pos hrun] at h
        by_cases hkeep : keepsRunning (s.threads cur) p
        · rw [if_pos hkeep] at h
          exact Or.inl ⟨hrun, hkeep, (Option.some.inj h).symm⟩
        · rw [if_neg hkeep] at h
          exact Or.inr (Or.inl ⟨hrun, hkeep, (Option.some.inj h).symm⟩)
      · simp only [if_neg hrun] at h
        exact Or.inr (Or.inr ⟨hrun, (Option.some.inj h).symm⟩)
    · rw [if_neg hgroup] at h
      exact Or.inl ⟨(Option.some.inj h).symm, Or.inr (not_not.mp hgroup)⟩
  · rw [if_neg hlock] at h
    exact Or.inl ⟨(Option.some.inj h).symm, Or.inl hlock⟩

/-- The highest ready priority: its queue has a head, and the queues of higher priorities are
empty. -/
theorem SchedInv.highest {x c : Option Tid} (h : SchedInv s x c)
    (hgroup : s.rt_thread_ready_priority_group ≠ 0) :
    ∃ next rest p, p < 32 ∧ s.rt_thread_priority_table p = next :: rest ∧
      s.get_highest_priority_thread = some (next, p) ∧
      ∀ q, q < p → s.rt_thread_priority_table q = [] := by
  obtain ⟨hlt, hset, hclear⟩ := rt_ffs_spec hgroup
  have hne := (h.group _ hlt).mp hset
  obtain ⟨next, rest, hcons⟩ := List.exists_cons_of_ne_nil hne
  refine ⟨next, rest, _, hlt, hcons, ?_, fun q hq => ?_⟩
  · simp only [get_highest_priority_thread, hcons]
  · by_contra hq'
    have := (h.group q (by omega)).mpr hq'
    rw [hclear q hq] at this
    cases this

/-- A thread that has a running timer is suspended. -/
theorem ThreadOk.timer_idle {c : Option Tid} (h : ThreadOk s c t)
    (hst : (s.threads t).stat ≠ .SUSPEND) : (s.threads t).thread_timer.activated = false := by
  cases hact : (s.threads t).thread_timer.activated with
  | false => rfl
  | true => exact absurd (h.timer hact) hst

theorem switchTo_inv {from_thread to_thread : Tid} {p : Nat} {need : Bool}
    (h : SchedInv s none (some from_thread)) (hready : (s.threads to_thread).stat = .READY)
    (hneed : need = true ↔ (s.threads from_thread).stat = .RUNNING) :
    Inv (s.switchTo from_thread to_thread p need) := by
  have hto := h.thread to_thread (by simp)
  have hfrom := h.thread from_thread (by simp)
  have hne : from_thread ≠ to_thread := by
    rintro rfl
    exact (hfrom.current rfl).1 hready
  -- the old thread leaves the processor
  have hleave : ∃ s2 : Rtos, SchedInv s2 none none ∧ s2.threads to_thread = s.threads to_thread ∧
      s2.rt_current_thread = some to_thread ∧ s.switchTo from_thread to_thread p need =
        ((s2.rt_schedule_remove_thread to_thread).setThread to_thread fun th =>
          { th with stat := .RUNNING }).contextSwitch from_thread to_thread := by
    let s1 : Rtos :=
      { s with rt_current_priority := p % 256, rt_current_thread := some to_thread }
    by_cases hrun : (s.threads from_thread).stat = .RUNNING
    · have hfloat : SchedInv s1 (some from_thread) none := (h.float hrun).congr rfl rfl rfl rfl rfl
      have hcur : s1.rt_current_thread ≠ some from_thread := fun heq => hne (Option.some.inj heq).symm
      refine ⟨s1.rt_schedule_insert_thread from_thread, ?_, ?_, ?_, ?_⟩
      · apply hfloat.rt_schedule_insert_thread hfrom.priority_lt hfrom.init_lt
        · exact hfrom.mask (Or.inr (Or.inl hrun))
        · exact iff_of_false hcur (by simp)
        · exact hfrom.timer_idle (by simp [hrun])
        · exact hfrom.object (by simp [hrun])
      · exact insert_threads_of_ne s1 from_thread hne.symm
      · exact insert_current s1 from_thread
      · rw [switchTo, hneed.mpr hrun]
        rfl
    · have hneed' : need = false := by
        cases need with
        | false => rfl
        | true => exact absurd (hneed.mp rfl) hrun
      refine ⟨s1, (h.vacate hrun).congr rfl rfl rfl rfl rfl, rfl, rfl, ?_⟩
      rw [switchTo, hneed']
      rfl
  obtain ⟨s2, h2, hth, hcur2, heq⟩ := hleave
  have hth3 : (s2.rt_schedule_remove_thread to_thread).threads to_thread = s.threads to_thread := hth
  have h3 : SchedInv (s2.rt_schedule_remove_thread to_thread) (some to_thread) none :=
    h2.rt_schedule_remove_thread (Or.inl (by rw [hth]; exact hready))
  have h4 := h3.occupy.setThread fun th => { th with stat := .RUNNING }
  have h5 : SchedInv ((s2.rt_schedule_remove_thread to_thread).setThread to_thread fun th =>
      { th with stat := .RUNNING }) none (some to_thread) := by
    apply h4.settle <;> simp only [setThread_self, hth3]
    · exact hto.priority_lt
    · exact hto.init_lt
    · exact fun _ => hto.mask (Or.inl hready)
    · simp
    · simp
    · simp
    · simp [hto.timer_idle (by simp [hready])]
    · exact fun _ => hto.object (by simp [hready])
  rw [heq]
  show SchedInv _ none s2.rt_current_thread
  rw [hcur2]
  exact h5.congr rfl rfl rfl rfl rfl

/-- The current thread that goes on running. -/
theorem stay_inv (h : SchedInv s none (some t)) (hcur : s.rt_current_thread = some t)
    (hrun : (s.threads t).stat = .RUNNING) (p : Nat) : Inv (s.finishSchedule t t p false) := by
  have ht := h.thread t (by simp)
  have h1 := (h.rt_schedule_remove_thread (t := t) (Or.inr (Or.inl hrun))).setThread
    fun th => { th with stat := .RUNNING }
  rw [finishSchedule, if_neg (by simp)]
  show SchedInv _ none s.rt_current_thread
  rw [hcur]
  have hth : (s.rt_schedule_remove_thread t).threads t = s.threads t := rfl
  apply h1.settle <;> simp only [setThread_self, hth]
  · exact ht.priority_lt
  · exact ht.init_lt
  · exact fun _ => ht.mask (Or.inr (Or.inl hrun))
  · simp
  · simp
  · simp
  · simp [ht.timer_idle (by simp [hrun])]
  · exact fun _ => ht.object (by simp [hrun])

theorem rt_schedule_inv (h : Inv s) (hs : s.rt_schedule = some s') : Inv s' := by
  rcases rt_schedule_cases hs with ⟨rfl, -⟩ | ⟨next, p, cur, -, hgroup, hnext, hcur, hcase⟩
  · exact h
  obtain ⟨next', rest, p', hp', hcons, hget, -⟩ := h.highest hgroup
  obtain ⟨rfl, rfl⟩ := Prod.mk.inj (Option.some.inj (hnext.symm.trans hget))
  have hready := ((h.thread next (by simp)).ready p (by rw [hcons]; exact List.mem_cons_self)).1
  unfold Inv at h
  rw [hcur] at h
  have hne : next ≠ cur := by
    rintro rfl
    exact ((h.thread next (by simp)).current rfl).1 hready
  have hyield : SchedInv (s.setThread cur fun th => { th with stat_yield := false }) none
      (some cur) := h.touch rfl rfl rfl rfl rfl (h.thread cur (by simp)).timer
  rcases hcase with ⟨hrun, -, rfl⟩ | ⟨hrun, -, rfl⟩ | ⟨hrun, rfl⟩
  · exact stay_inv hyield hcur (by simpa using hrun) p
  · rw [finishSchedule, if_pos hne]
    apply switchTo_inv hyield
    · rw [setThread_of_ne s cur _ hne]
      exact hready
    · simpa using hrun
  · rw [finishSchedule, if_pos hne]
    apply switchTo_inv h hready
    simpa using hrun

end Schedule

end Ab32Vg1.Kernel
