import Ab32Vg1.Drivers.Workqueue
import Mathlib.Data.List.Nodup

/-! What a workqueue keeps over every run, and the orders of steps that lose an item, execute it with
the wrong flags or find it without its queue. -/

namespace Ab32Vg1.Drivers

open ProofKit Kernel

namespace Workqueue

variable {queue : Workqueue} {work v : WorkId}

/-! ### The lists -/

/-- No item is twice in the lists. -/
structure Lists (queue : Workqueue) : Prop where
  work_list : queue.work_list.Nodup
  delayed_list : queue.delayed_list.Nodup
  apart : ∀ work, ¬ (work ∈ queue.work_list ∧ work ∈ queue.delayed_list)

theorem Lists.remove (h : queue.Lists) (work : WorkId) : (queue.rt_list_remove work).Lists :=
  ⟨h.work_list.erase _, h.delayed_list.erase _, fun _ hv =>
    h.apart _ ⟨List.mem_of_mem_erase hv.1, List.mem_of_mem_erase hv.2⟩⟩

theorem Lists.not_mem_remove (h : queue.Lists) (work : WorkId) :
    work ∉ (queue.rt_list_remove work).work_list ∧
      work ∉ (queue.rt_list_remove work).delayed_list :=
  ⟨h.work_list.not_mem_erase, h.delayed_list.not_mem_erase⟩

theorem mem_remove (hne : v ≠ work) :
    v ∈ (queue.rt_list_remove work).work_list ↔ v ∈ queue.work_list :=
  List.mem_erase_of_ne hne

/-- An item that is in no list goes into the work list. -/
theorem Lists.insert (h : queue.Lists) {l : List WorkId} (hl : l.Perm (work :: queue.work_list))
    (hw : work ∉ queue.work_list ∧ work ∉ queue.delayed_list) (works : WorkId → Work)
    (suspended : Bool) :
    ({ queue with work_list := l, works := works, suspended := suspended } : Workqueue).Lists := by
  refine ⟨hl.nodup_iff.mpr (List.nodup_cons.mpr ⟨hw.1, h.work_list⟩), h.delayed_list, ?_⟩
  rintro v ⟨hv, hd⟩
  rcases List.mem_cons.mp (hl.mem_iff.mp hv) with rfl | hv
  · exact hw.2 hd
  · exact h.apart v ⟨hv, hd⟩

theorem Lists.insert_delayed (h : queue.Lists)
    (hw : work ∉ queue.work_list ∧ work ∉ queue.delayed_list) (works : WorkId → Work) :
    ({ queue with delayed_list := queue.delayed_list ++ [work], works := works } :
      Workqueue).Lists := by
  have hp : (queue.delayed_list ++ [work]).Perm (work :: queue.delayed_list) :=
    List.perm_append_singleton work queue.delayed_list
  refine ⟨h.work_list, hp.nodup_iff.mpr (List.nodup_cons.mpr ⟨hw.2, h.delayed_list⟩), ?_⟩
  rintro v ⟨hv, hd⟩
  rcases List.mem_cons.mp (hp.mem_iff.mp hd) with rfl | hd
  · exact hw.1 hv
  · exact h.apart v ⟨hv, hd⟩

end Workqueue

namespace WqSystem

variable {c c' : WqSystem} {work v : WorkId}

/-! ### The invariant -/

/-- What holds of one item: its flags are true, its timer runs only with its queue set and a
submission owed, and a submission that is owed is scheduled. -/
structure WorkInv (c : WqSystem) (work : WorkId) : Prop where
  pending : (c.queue.works work).pending = true ↔ work ∈ c.queue.work_list
  timer : (c.queue.works work).submitting = true ↔ (c.queue.works work).timer ≠ .detached
  workqueue : (c.queue.works work).submitting = true → (c.queue.works work).workqueue = true
  called : c.handler = some (work, .called) → (c.queue.works work).submitting = true
  owed : work ∈ c.queue.work_list ∨ (c.queue.works work).submitting = true → c.owed work ≠ none
  scheduled : c.owed work ≠ none → c.Scheduled work
  current : c.queue.work_current = some work → work ∉ c.queue.work_list

/-- The accepted submissions are told apart by their numbers. -/
structure Numbers (c : WqSystem) : Prop where
  fresh : ∀ work n, c.owed work = some n → n < c.submissions ∧ some n ∉ c.executed
  distinct : ∀ work v n, c.owed work = some n → c.owed v = some n → work = v
  executed : ∀ e ∈ c.executed, ∃ n < c.submissions, e = some n
  nodup : c.executed.Nodup

structure Inv (c : WqSystem) : Prop where
  lists : c.queue.Lists
  works : ∀ work, WorkInv c work
  idle : c.queue.suspended = true → c.queue.work_list = [] ∧ c.queue.work_current = none
  numbers : c.Numbers

/-- The invariant of an item whose record is known. -/
theorem WorkInv.of {w : Work} (hwork : c.queue.works work = w)
    (pending : w.pending = true ↔ work ∈ c.queue.work_list)
    (timer : w.submitting = true ↔ w.timer ≠ .detached)
    (workqueue : w.submitting = true → w.workqueue = true)
    (called : c.handler = some (work, .called) → w.submitting = true)
    (owed : work ∈ c.queue.work_list ∨ w.submitting = true → c.owed work ≠ none)
    (scheduled : c.owed work ≠ none → work ∈ c.queue.work_list ∨ w.timer ≠ .detached ∧
      (w.timer = .activated ∨ work ∈ c.starting ∨ c.handler.map Prod.fst = some work))
    (current : c.queue.work_current = some work → work ∉ c.queue.work_list) : WorkInv c work := by
  subst hwork
  exact ⟨pending, timer, workqueue, called, owed, scheduled, current⟩

/-- A step that is about another item. -/
theorem WorkInv.frame (h : WorkInv c v) (hwork : c'.queue.works v = c.queue.works v)
    (hlist : v ∈ c'.queue.work_list ↔ v ∈ c.queue.work_list) (howed : c'.owed v = c.owed v)
    (hstart : v ∈ c.starting → v ∈ c'.starting)
    (hcalled : c'.handler = some (v, .called) → c.handler = some (v, .called))
    (hhandler : c.handler.map Prod.fst = some v → c'.handler.map Prod.fst = some v)
    (hcurrent : c'.queue.work_current = some v → c.queue.work_current = some v) : WorkInv c' v where
  pending := by rw [hwork, hlist, h.pending]
  timer := by rw [hwork, h.timer]
  workqueue := by
    rw [hwork]
    exact h.workqueue
  called hc := by
    rw [hwork]
    exact h.called (hcalled hc)
  owed := by
    rw [hwork, hlist, howed]
    exact h.owed
  scheduled ho := by
    rw [howed] at ho
    rcases h.scheduled ho with hl | ⟨ht, hl⟩
    · exact .inl (hlist.mpr hl)
    · refine .inr ⟨hwork ▸ ht, ?_⟩
      rcases hl with hl | hl | hl
      · exact .inl (hwork ▸ hl)
      · exact .inr (.inl (hstart hl))
      · exact .inr (.inr (hhandler hl))
  current hc := by
    rw [hlist]
    exact h.current (hcurrent hc)

theorem Numbers.congr (h : c.Numbers) (hs : c'.submissions = c.submissions)
    (ho : c'.owed = c.owed) (he : c'.executed = c.executed) : c'.Numbers := by
  refine ⟨?_, ?_, ?_, ?_⟩
  · rw [hs, ho, he]
    exact h.fresh
  · rw [ho]
    exact h.distinct
  · rw [hs, he]
    exact h.executed
  · rw [he]
    exact h.nodup

/-- A new submission has a number of its own. -/
theorem Numbers.accept (h : c.Numbers) (work : WorkId) : (c.accept work).Numbers := by
  have hold : ∀ v n, v ≠ work → (c.accept work).owed v = some n → c.owed v = some n := by
    intro v n hv hn
    have heq : (c.accept work).owed v = c.owed v := Function.update_of_ne hv ..
    exact heq ▸ hn
  have hnew : ∀ n, (c.accept work).owed work = some n → n = c.submissions := by
    intro n hn
    have heq : (c.accept work).owed work = some c.submissions := Function.update_self ..
    exact (Option.some.inj (heq.symm.trans hn)).symm
  have hlt : ∀ v n, v ≠ work → (c.accept work).owed v = some n → n < c.submissions :=
    fun v n hv hn => (h.fresh v n (hold v n hv hn)).1
  refine ⟨fun v n hn => ?_, fun v w n hn hm => ?_, fun e he => ?_, h.nodup⟩
  · by_cases hv : v = work
    · subst hv
      cases hnew n hn
      refine ⟨Nat.lt_succ_self _, fun he => ?_⟩
      obtain ⟨m, hm, heq⟩ := h.executed _ he
      cases heq
      exact Nat.lt_irrefl _ hm
    · exact ⟨Nat.lt_succ_of_lt (hlt v n hv hn), (h.fresh v n (hold v n hv hn)).2⟩
  · by_cases hv : v = work
    · by_cases hw : w = work
      · rw [hv, hw]
      · subst hv
        have := hlt w n hw hm
        have := hnew n hn
        omega
    · by_cases hw : w = work
      · subst hw
        have := hlt v n hv hn
        have := hnew n hm
        omega
      · exact h.distinct v w n (hold v n hv hn) (hold w n hw hm)
  · obtain ⟨n, hn, rfl⟩ := h.executed e he
    exact ⟨n, Nat.lt_succ_of_lt hn, rfl⟩

/-- An item that is no longer owed anything, its submission cancelled or executed. -/
theorem Numbers.settle (h : c.Numbers) (work : WorkId) (executed : List (Option Nat))
    (hex : executed = c.executed ∨ ∃ n, c.owed work = some n ∧ executed = some n :: c.executed)
    (queue : Workqueue) :
    ({ c with queue := queue, owed := Function.update c.owed work none, executed := executed } :
      WqSystem).Numbers := by
  have hold : ∀ v n, Function.update c.owed work none v = some n → v ≠ work ∧ c.owed v = some n := by
    intro v n hn
    by_cases hv : v = work
    · subst hv
      rw [Function.update_self] at hn
      cases hn
    · rw [Function.update_of_ne hv] at hn
      exact ⟨hv, hn⟩
  have hdistinct : ∀ v w n, Function.update c.owed work none v = some n →
      Function.update c.owed work none w = some n → v = w :=
    fun v w n hn hm => h.distinct v w n (hold v n hn).2 (hold w n hm).2
  rcases hex with rfl | ⟨m, hm, rfl⟩
  · exact ⟨fun v n hn => h.fresh v n (hold v n hn).2, hdistinct, h.executed, h.nodup⟩
  · refine ⟨fun v n hn => ?_, hdistinct, fun e he => ?_, ?_⟩
    · obtain ⟨hv, hn⟩ := hold v n hn
      obtain ⟨hlt, hnot⟩ := h.fresh v n hn
      refine ⟨hlt, fun he => ?_⟩
      rcases List.mem_cons.mp he with heq | he
      · cases heq
        exact hv (h.distinct v work _ hn hm)
      · exact hnot he
    · rcases List.mem_cons.mp he with rfl | he
      · exact ⟨m, (h.fresh work m hm).1, rfl⟩
      · exact h.executed e he
    · exact List.nodup_cons.mpr ⟨(h.fresh work m hm).2, h.nodup⟩

theorem Fresh.inv (h : c.Fresh) : c.Inv := by
  refine ⟨⟨?_, ?_, ?_⟩, fun work => ?_, fun _ => ⟨h.work_list, h.work_current⟩, ?_⟩
  · rw [h.work_list]
    exact List.nodup_nil
  · rw [h.delayed_list]
    exact List.nodup_nil
  · rintro w ⟨hw, -⟩
    rw [h.work_list] at hw
    cases hw
  · have hwork := h.works work
    refine ⟨?_, ?_, ?_, ?_, ?_, ?_, ?_⟩
    · rw [hwork, h.work_list]
      simp [Work.rt_work_init]
    · rw [hwork]
      simp [Work.rt_work_init]
    · rw [hwork]
      simp [Work.rt_work_init]
    · rw [h.handler]
      simp
    · rw [hwork, h.work_list]
      simp [Work.rt_work_init]
    · intro ho
      exact absurd (h.owed work) ho
    · rw [h.work_current]
      simp
  · refine ⟨?_, ?_, ?_, ?_⟩
    · intro w n hn
      rw [h.owed] at hn
      cases hn
    · intro w v n hn
      rw [h.owed] at hn
      cases hn
    · intro e he
      rw [h.executed] at he
      cases he
    · rw [h.executed]
      exact List.nodup_nil

/-! ### Submissions -/

theorem setWork_self (queue : Workqueue) (work : WorkId) (w : Work) :
    (queue.setWork work w).works work = w := Function.update_self ..

theorem setWork_ne (queue : Workqueue) (w : Work) (hv : v ≠ work) :
    (queue.setWork work w).works v = queue.works v := Function.update_of_ne hv ..

/-- A thread that is suspended does no work, so the end of a submission leaves it awake. -/
theorem Inv.resumed (h : c.Inv) :
    (if c.queue.work_current = none then false else c.queue.suspended) = false := by
  split
  · rfl
  · next hcur =>
    by_contra hs
    exact hcur (h.idle (Bool.eq_true_of_not_eq_false hs)).2

/-- A submission that is rejected leaves an item that is not in the work list where its timer finds
it. -/
theorem Inv.rejected (h : c.Inv) (hnot : work ∉ c.queue.work_list) {suspended : Bool}
    (hs : suspended = true → c.queue.suspended = true) :
    ({ c with queue := { (c.queue.rt_list_remove work).setWork work
        { c.queue.works work with pending := false } with suspended := suspended } } :
      WqSystem).Inv := by
  have hlist : (c.queue.rt_list_remove work).work_list = c.queue.work_list :=
    List.erase_of_not_mem hnot
  obtain ⟨hw, hd, ha⟩ := h.lists.remove work
  refine ⟨⟨hw, hd, ha⟩, fun v => ?_, fun hsus => ?_, h.numbers.congr rfl rfl rfl⟩
  · by_cases hv : v = work
    · subst hv
      have hold := h.works v
      have hnot' : v ∉ (c.queue.rt_list_remove v).work_list := hlist ▸ hnot
      refine .of (setWork_self ..) ⟨fun hp => (by cases hp), fun hl => absurd hl hnot'⟩ hold.timer
        hold.workqueue hold.called ?_ ?_ fun _ => hnot'
      · rintro (hl | hl)
        · exact absurd hl hnot'
        · exact hold.owed (.inr hl)
      · intro ho
        rcases hold.scheduled ho with hl | ht
        · exact absurd hl hnot
        · exact .inr ht
    · exact (h.works v).frame (setWork_ne _ _ hv) (Workqueue.mem_remove hv) rfl id id id id
  · obtain ⟨hl, hcur⟩ := h.idle (hs hsus)
    exact ⟨hlist.trans hl, hcur⟩

/-- An item that goes into the work list, with a submission owed. -/
theorem Inv.queued (h : c.Inv) {l : List WorkId} {works : WorkId → Work} {suspended : Bool}
    {handler : Option (WorkId × HandlerPhase)} {submissions : Nat} {owed : WorkId → Option Nat}
    (hl : l.Perm (work :: (c.queue.rt_list_remove work).work_list))
    (hworks : ∀ v, v ≠ work → works v = c.queue.works v)
    (hpending : (works work).pending = true)
    (htimer : (works work).submitting = true ↔ (works work).timer ≠ .detached)
    (hqueue : (works work).submitting = true → (works work).workqueue = true)
    (hcalled : handler = some (work, .called) → (works work).submitting = true)
    (howed : owed work ≠ none) (howed' : ∀ v, v ≠ work → owed v = c.owed v)
    (hhandler : handler = c.handler ∨ handler = none ∧ c.handler.map Prod.fst = some work)
    (hcur : c.queue.work_current ≠ some work) (hs : suspended = false)
    (hnum : ({ c with handler := handler, submissions := submissions, owed := owed } :
      WqSystem).Numbers) :
    ({ c with
      queue := { c.queue.rt_list_remove work with
        work_list := l, works := works, suspended := suspended }
      handler := handler, submissions := submissions, owed := owed } : WqSystem).Inv := by
  have hmem : ∀ v, v ≠ work → (v ∈ l ↔ v ∈ c.queue.work_list) := by
    intro v hv
    rw [hl.mem_iff, List.mem_cons, Workqueue.mem_remove hv]
    exact ⟨fun hm => hm.resolve_left hv, .inr⟩
  have hin : work ∈ l := hl.mem_iff.mpr (List.mem_cons_self ..)
  refine ⟨(h.lists.remove work).insert hl (h.lists.not_mem_remove work) works suspended,
    fun v => ?_, fun hsus => absurd (hs ▸ hsus) Bool.false_ne_true, hnum.congr rfl rfl rfl⟩
  by_cases hv : v = work
  · subst hv
    exact .of rfl ⟨fun _ => hin, fun _ => hpending⟩ htimer hqueue hcalled (fun _ => howed)
      (fun _ => .inl hin) fun hc => absurd hc hcur
  · refine (h.works v).frame (hworks v hv) (hmem v hv) (howed' v hv) id (fun hc => ?_)
      (fun hc => ?_) id
    · rcases hhandler with rfl | ⟨rfl, -⟩
      · exact hc
      · cases hc
    · rcases hhandler with rfl | ⟨-, hw⟩
      · exact hc
      · exact absurd (Option.some.inj (hc.symm.trans hw)) hv

theorem Work.setTimer_eq {w w' : Work} (h : w.setTimer = some w') :
    w' = { w with timer := .stopped, submitting := true } := by
  rw [Work.setTimer] at h
  split at h
  · next hsub =>
    obtain ⟨-, h⟩ := RT_ASSERT_bind_eq_some.mp h
    rw [← Option.some.inj h, ← hsub]
  · obtain ⟨-, h⟩ := RT_ASSERT_bind_eq_some.mp h
    exact (Option.some.inj h).symm

/-- An item that goes into the delayed list, its timer about to be started. -/
theorem Inv.delayed (h : c.Inv) {w : Work} (hw : w = ⟨false, true, .stopped, true⟩) :
    (({ c with
      queue := (({ c.queue.rt_list_remove work with
        delayed_list := (c.queue.rt_list_remove work).delayed_list ++ [work] } : Workqueue).setWork
          work w)
      starting := work :: c.starting } : WqSystem).accept work).Inv := by
  have hnot := (h.lists.not_mem_remove work).1
  refine ⟨(h.lists.remove work).insert_delayed (h.lists.not_mem_remove work) _, fun v => ?_,
    fun hsus => ?_, (h.numbers.accept work).congr rfl rfl rfl⟩
  · by_cases hv : v = work
    · subst hv
      have howed : Function.update c.owed v (some c.submissions) v ≠ none := by
        rw [Function.update_self]
        exact fun ho => (by cases ho)
      refine .of (setWork_self ..) ?_ ?_ ?_ ?_ (fun _ => howed) ?_ fun _ => hnot
      · rw [hw]
        exact ⟨fun hp => (by cases hp), fun hl => absurd hl hnot⟩
      · rw [hw]
        exact ⟨fun _ ht => (by cases ht), fun _ => rfl⟩
      · rw [hw]
        exact fun _ => rfl
      · rw [hw]
        exact fun _ => rfl
      · rw [hw]
        exact fun _ => .inr ⟨fun ht => (by cases ht), .inr (.inl (List.mem_cons_self ..))⟩
    · exact (h.works v).frame (setWork_ne _ _ hv) (Workqueue.mem_remove hv)
        (Function.update_of_ne hv ..) (List.mem_cons_of_mem _) id id id
  · obtain ⟨hl, hcur⟩ := h.idle hsus
    refine ⟨?_, hcur⟩
    show c.queue.work_list.erase work = []
    rw [hl]
    rfl

theorem Inv.submit (h : c.Inv) {ticks : Nat}
    (hl : RT_TICK_MAX / 2 ≤ ticks → work ∉ c.queue.work_list)
    (hs : c.submit work ticks = some c') : c'.Inv := by
  obtain ⟨⟨queue, err⟩, hq, rfl⟩ := Option.map_eq_some_iff.mp hs
  rw [Workqueue._workqueue_submit_work] at hq
  have howed : Function.update c.owed work (some c.submissions) work ≠ none := by
    rw [Function.update_self]
    exact fun ho => (by cases ho)
  have hbusy' : (- RT_EBUSY) ≠ RT_EOK := by decide
  have herror : (- RT_ERROR) ≠ RT_EOK := by decide
  by_cases h0 : ticks = 0
  · rw [if_pos h0] at hq
    by_cases hcur : c.queue.work_current = some work
    · have hbusy : ¬ (c.queue.rt_list_remove work).work_current ≠ some work := not_not_intro hcur
      rw [if_neg hbusy] at hq
      cases hq
      simp only [hbusy', if_false]
      exact h.rejected ((h.works work).current hcur) fun hsus =>
        absurd (h.resumed.symm.trans hsus) (by decide)
    · have hidle : (c.queue.rt_list_remove work).work_current ≠ some work := hcur
      rw [if_pos hidle] at hq
      cases hq
      simp only [h0, if_true]
      have hold := h.works work
      exact h.queued (List.perm_append_singleton ..) (fun v hv => setWork_ne _ _ hv)
        (by rw [setWork_self]) (by rw [setWork_self]; exact hold.timer)
        (by rw [setWork_self]; exact fun _ => rfl) (by rw [setWork_self]; exact hold.called)
        howed (fun v hv => Function.update_of_ne hv ..) (.inl rfl) hcur h.resumed
        ((h.numbers.accept work).congr rfl rfl rfl)
  · rw [if_neg h0] at hq
    by_cases hlt : ticks < RT_TICK_MAX / 2
    · rw [if_pos hlt] at hq
      obtain ⟨w, hw, hq⟩ := Option.map_eq_some_iff.mp hq
      cases hq
      simp only [h0, if_true, if_false]
      exact h.delayed (by rw [Work.setTimer_eq hw])
    · rw [if_neg hlt] at hq
      cases hq
      simp only [herror, if_false]
      exact h.rejected (hl (Nat.le_of_not_lt hlt)) id

theorem Inv.critical (h : c.Inv) (hl : work ∈ c.queue.work_list) :
    (({ c with queue := c.queue.rt_workqueue_critical_work work } : WqSystem).accept work).Inv := by
  have hold := h.works work
  have howed : Function.update c.owed work (some c.submissions) work ≠ none := by
    rw [Function.update_self]
    exact fun ho => (by cases ho)
  exact h.queued (.refl _) (fun _ _ => rfl) (hold.pending.mpr hl) hold.timer hold.workqueue
    hold.called howed (fun v hv => Function.update_of_ne hv ..) (.inl rfl)
    (fun hcur => hold.current hcur hl) h.resumed ((h.numbers.accept work).congr rfl rfl rfl)

/-! ### Cancellation, the timer and the worker -/

theorem Work.cancelled_eq {w w' : Work} (h : w.cancelled = some w') :
    w'.pending = false ∧ w'.submitting = false ∧ w'.workqueue = false ∧
      (w.submitting = true → w'.timer = .detached) ∧
      (w.submitting = false → w'.timer = w.timer) := by
  rw [Work.cancelled] at h
  split at h
  · next hsub =>
    obtain ⟨-, h⟩ := RT_ASSERT_bind_eq_some.mp h
    cases h
    exact ⟨rfl, rfl, rfl, fun _ => rfl, fun hs => absurd (hsub.symm.trans hs) (by decide)⟩
  · next hsub =>
    cases h
    exact ⟨rfl, Bool.eq_false_of_not_eq_true hsub, rfl, fun hs => absurd hs hsub, fun _ => rfl⟩

theorem Inv.cancel (h : c.Inv) {queue : Workqueue} {err : Int}
    (hl : c.handler ≠ some (work, .called))
    (hq : c.queue._workqueue_cancel_work work = some (queue, err)) :
    ({ c with queue := queue, owed := Function.update c.owed work none } : WqSystem).Inv := by
  obtain ⟨w, hw, hq⟩ := Option.map_eq_some_iff.mp hq
  cases hq
  obtain ⟨hpending, hsub, -, hdetached, htimer⟩ := Work.cancelled_eq hw
  have hnot := (h.lists.not_mem_remove work).1
  obtain ⟨hwl, hd, ha⟩ := h.lists.remove work
  refine ⟨⟨hwl, hd, ha⟩, fun v => ?_, fun hsus => ?_, h.numbers.settle work _ (.inl rfl) _⟩
  · by_cases hv : v = work
    · subst hv
      have hgone : w.timer = .detached := by
        cases hs : (c.queue.works v).submitting with
        | true => exact hdetached hs
        | false =>
          rw [htimer hs]
          by_contra ht
          rw [(h.works v).timer.mpr ht] at hs
          cases hs
      have hnone : Function.update c.owed v none v = none := Function.update_self ..
      refine .of (setWork_self ..) ?_ ?_ ?_ (fun hc => absurd hc hl) ?_
        (fun ho => absurd hnone ho) fun _ => hnot
      · rw [hpending]
        exact ⟨fun hp => (by cases hp), fun hl => absurd hl hnot⟩
      · rw [hsub, hgone]
        exact ⟨fun hs => (by cases hs), fun ht => absurd rfl ht⟩
      · rw [hsub]
        exact fun hs => (by cases hs)
      · rw [hsub]
        rintro (hl | hs)
        · exact absurd hl hnot
        · cases hs
    · exact (h.works v).frame (setWork_ne _ _ hv) (Workqueue.mem_remove hv)
        (Function.update_of_ne hv ..) id id id id
  · obtain ⟨hl, hcur⟩ := h.idle hsus
    refine ⟨?_, hcur⟩
    show c.queue.work_list.erase work = []
    rw [hl]
    rfl

/-- The timer of an item is started, or expires and calls the handler. -/
theorem Inv.timer (h : c.Inv) {t : WorkTimer} {starting : List WorkId}
    {handler : Option (WorkId × HandlerPhase)} (ht : (c.queue.works work).timer ≠ .detached)
    (ht' : t ≠ .detached)
    (hlive : t = .activated ∨ handler.map Prod.fst = some work)
    (hstart : ∀ v, v ≠ work → v ∈ c.starting → v ∈ starting)
    (hhandler : handler = c.handler ∨ handler = some (work, .called) ∧ c.handler = none) :
    ({ c with
      starting := starting, handler := handler
      queue := c.queue.setWork work { c.queue.works work with timer := t } } : WqSystem).Inv := by
  have hold := h.works work
  refine ⟨⟨h.lists.work_list, h.lists.delayed_list, h.lists.apart⟩, fun v => ?_, h.idle,
    h.numbers.congr rfl rfl rfl⟩
  by_cases hv : v = work
  · subst hv
    have hsub := hold.timer.mpr ht
    refine .of (setWork_self ..) hold.pending ⟨fun _ => ht', fun _ => hsub⟩ hold.workqueue
      (fun _ => hsub) hold.owed (fun _ => .inr ⟨ht', ?_⟩) hold.current
    rcases hlive with hl | hl
    · exact .inl hl
    · exact .inr (.inr hl)
  · refine (h.works v).frame (setWork_ne _ _ hv) Iff.rfl rfl (hstart v hv) (fun hc => ?_)
      (fun hc => ?_) id
    · rcases hhandler with rfl | ⟨rfl, -⟩
      · exact hc
      · cases hc
        exact absurd rfl hv
    · rcases hhandler with rfl | ⟨-, hn⟩
      · exact hc
      · rw [hn] at hc
        cases hc

theorem Inv.timeout (h : c.Inv) {queue : Workqueue} (hh : c.handler = some (work, .entered))
    (hl : c.queue.work_current = none ∨ c.handler.map Prod.fst ≠ c.queue.work_current)
    (hq : c.queue._delayed_work_timeout_handler work = some queue) :
    ({ c with queue := queue, handler := none } : WqSystem).Inv := by
  have hold := h.works work
  have hcur : c.queue.work_current ≠ some work := by
    intro hc
    rcases hl with hn | hne
    · rw [hc] at hn
      cases hn
    · exact hne (by rw [hh, hc]; rfl)
  have hfst : c.handler.map Prod.fst = some work := by
    rw [hh]
    rfl
  obtain ⟨ht, hq⟩ := RT_ASSERT_bind_eq_some.mp hq
  have hidle : (c.queue.rt_list_remove work).work_current ≠ some work := hcur
  simp only [hidle, ne_eq, not_false_eq_true, if_true] at hq
  cases hq
  exact h.queued (List.perm_append_singleton ..) (fun v hv => setWork_ne _ _ hv)
    (by rw [setWork_self]) (by rw [setWork_self]; exact ⟨fun hs => (by cases hs), fun hs => absurd rfl hs⟩)
    (by rw [setWork_self]; exact fun hs => (by cases hs)) (fun hc => (by cases hc))
    (hold.owed (.inr (hold.timer.mpr ht))) (fun _ _ => rfl) (.inr ⟨rfl, hfst⟩) hcur h.resumed
    (h.numbers.congr rfl rfl rfl)

theorem Inv.take (h : c.Inv) {rest : List WorkId} (hlist : c.queue.work_list = work :: rest)
    (hsub : (c.queue.works work).submitting = false) :
    ({ c with
      queue := c.queue._workqueue_thread_entry
      owed := Function.update c.owed work none
      executed := c.owed work :: c.executed } : WqSystem).Inv := by
  have hold := h.works work
  have hnodup := h.lists.work_list
  rw [hlist] at hnodup
  obtain ⟨hnot, hrest⟩ := List.nodup_cons.mp hnodup
  have hqueue : c.queue._workqueue_thread_entry = ({ c.queue with
      work_list := rest, work_current := some work } : Workqueue).setWork work
        { c.queue.works work with pending := false, workqueue := false } := by
    simp only [Workqueue._workqueue_thread_entry, hlist]
  obtain ⟨n, hn⟩ : ∃ n, c.owed work = some n :=
    Option.ne_none_iff_exists'.mp (hold.owed (.inl (hlist ▸ List.mem_cons_self ..)))
  rw [hqueue]
  refine ⟨⟨hrest, h.lists.delayed_list, fun v hv => ?_⟩, fun v => ?_, fun hsus => ?_,
    h.numbers.settle work _ (.inr ⟨n, hn, by rw [hn]⟩) _⟩
  · exact h.lists.apart v ⟨hlist ▸ List.mem_cons_of_mem _ hv.1, hv.2⟩
  · by_cases hv : v = work
    · subst hv
      have hnone : Function.update c.owed v none v = none := Function.update_self ..
      refine .of (setWork_self ..) ⟨fun hp => (by cases hp), fun hl => absurd hl hnot⟩ hold.timer
        (fun hs => absurd (hs.symm.trans hsub) (by decide)) hold.called ?_
        (fun ho => absurd hnone ho) fun _ => hnot
      rintro (hl | hs)
      · exact absurd hl hnot
      · exact absurd (hs.symm.trans hsub) (by decide)
    · refine (h.works v).frame (setWork_ne _ _ hv) ?_ (Function.update_of_ne hv ..) id id id
        fun hc => absurd (Option.some.inj hc).symm hv
      show v ∈ rest ↔ v ∈ c.queue.work_list
      rw [hlist, List.mem_cons]
      exact ⟨.inr, fun hm => hm.resolve_left hv⟩
  · have hnil := (h.idle hsus).1
    rw [hlist] at hnil
    cases hnil

/-- One step keeps the invariant. -/
theorem Inv.step (h : c.Inv) {l : WqStep} (hl : c.Sound l) (hs : c.step l = some c') : c'.Inv := by
  cases l with
  | submit work ticks => exact h.submit hl hs
  | critical work =>
    cases hs
    exact h.critical hl
  | cancel work =>
    obtain ⟨⟨queue, err⟩, hq, rfl⟩ := Option.map_eq_some_iff.mp hs
    exact h.cancel hl hq
  | timerStart work =>
    simp only [WqSystem.step] at hs
    split at hs
    · next ht =>
      cases hs
      exact h.timer ht.2 (by decide) (.inl rfl)
        (fun v hv hm => (List.mem_erase_of_ne hv).mpr hm) (.inl rfl)
    · cases hs
  | expire work =>
    simp only [WqSystem.step] at hs
    split at hs
    · next ht =>
      cases hs
      have hrun : (c.queue.works work).timer ≠ .detached := by
        rw [ht.2]
        decide
      exact h.timer hrun (by decide) (.inr rfl) (fun _ _ hm => hm) (.inr ⟨rfl, ht.1⟩)
    · cases hs
  | enter =>
    simp only [WqSystem.step] at hs
    split at hs
    · next work hh =>
      obtain ⟨-, hs⟩ := RT_ASSERT_bind_eq_some.mp hs
      cases hs
      have hfst : ∀ v, c.handler.map Prod.fst = some v → work = v := by
        intro v hv
        rw [hh] at hv
        exact Option.some.inj hv
      exact ⟨h.lists, fun v => (h.works v).frame rfl Iff.rfl rfl id (fun hc => (by cases hc))
        (fun hc => congrArg some (hfst v hc)) id, h.idle, h.numbers.congr rfl rfl rfl⟩
    · cases hs
  | timeout =>
    simp only [WqSystem.step] at hs
    split at hs
    · next work hh =>
      obtain ⟨queue, hq, rfl⟩ := Option.map_eq_some_iff.mp hs
      exact h.timeout hh hl hq
    · cases hs
  | work =>
    simp only [WqSystem.step] at hs
    split at hs
    · next hidle =>
      split at hs
      · next hnil =>
        cases hs
        have hqueue : c.queue._workqueue_thread_entry = { c.queue with suspended := true } := by
          simp only [Workqueue._workqueue_thread_entry, hnil]
        rw [hqueue]
        exact ⟨⟨h.lists.work_list, h.lists.delayed_list, h.lists.apart⟩,
          fun v => (h.works v).frame rfl Iff.rfl rfl id id id id, fun _ => ⟨hnil, hidle.2⟩,
          h.numbers.congr rfl rfl rfl⟩
      · next work rest hlist =>
        cases hs
        exact h.take hlist (hl work (by rw [hlist]; rfl))
    · cases hs
  | done =>
    simp only [WqSystem.step] at hs
    split at hs
    · cases hs
      exact ⟨⟨h.lists.work_list, h.lists.delayed_list, h.lists.apart⟩,
        fun v => (h.works v).frame rfl Iff.rfl rfl id id id (fun hc => (by cases hc)),
        fun hsus => ⟨(h.idle hsus).1, rfl⟩, h.numbers.congr rfl rfl rfl⟩
    · cases hs

theorem reachable_inv (hr : (wqMachine.restrict Sound).Reachable c) : c.Inv := by
  apply hr.invariant
  · exact fun c h => Fresh.inv h
  · rintro c l c' - h ⟨hl, hs⟩
    exact h.step hl hs

end WqSystem

open WqSystem

theorem workqueue_delivers {c : WqSystem} (hr : (wqMachine.restrict Sound).Reachable c) :
    WorkqueueContract c := by
  have h := reachable_inv hr
  refine ⟨⟨h.lists.work_list, h.lists.delayed_list, h.lists.apart⟩, fun work => (h.works work).pending,
    ⟨h.numbers.nodup, h.numbers.executed⟩, fun work n hn => ?_, fun hne => ?_, fun work hc => ?_⟩
  · exact (h.works work).scheduled fun hnone => by
      rw [hnone] at hn
      cases hn
  · by_contra hsus
    exact hne (h.idle (Bool.eq_true_of_not_eq_false hsus)).1
  · exact (h.works work).workqueue ((h.works work).called hc)

/-! ### Runs -/

/-- A workqueue with nothing to do. -/
def newWorkqueue : WqSystem where
  queue := ⟨[], [], none, false, fun _ => Work.rt_work_init⟩
  starting := []
  handler := none
  submissions := 0
  owed _ := none
  executed := []

theorem newWorkqueue_fresh : newWorkqueue.Fresh :=
  ⟨rfl, rfl, rfl, fun _ => rfl, rfl, rfl, fun _ => rfl, rfl⟩

/-- The steps that meet the condition. -/
def wqStepSound (c : WqSystem) (l : WqStep) : Option WqSystem := if c.Sound l then c.step l else none

theorem wqStepSound_step {c c' : WqSystem} {l : WqStep} (h : wqStepSound c l = some c') :
    (wqMachine.restrict Sound).step c l c' := by
  rw [wqStepSound] at h
  split at h
  · next hl => exact ⟨hl, h⟩
  · cases h

/-- Item 1 is delayed, item 2 done at once and again once it has been executed, and item 3 is delayed
and cancelled. -/
def delayAndCancel : List WqStep :=
  [.work, .submit 1 10, .timerStart 1, .submit 2 0, .work, .submit 3 5, .submit 2 0, .timerStart 3,
    .expire 1, .enter, .timeout, .done, .cancel 3, .critical 1, .work, .done, .submit 2 0, .work]

theorem workqueue_delivers_run : ∃ c,
    Machine.runs wqStepSound newWorkqueue delayAndCancel = some c ∧
      c.executed = [some 4, some 3, some 1] ∧ WorkqueueContract c := by
  have hrun : ∃ c, Machine.runs wqStepSound newWorkqueue delayAndCancel = some c ∧
      c.executed = [some 4, some 3, some 1] := by
    decide +kernel
  obtain ⟨c, hc, hex⟩ := hrun
  exact ⟨c, hc, hex, workqueue_delivers
    ((Machine.Reachable.start newWorkqueue_fresh).runs (fun _ _ _ => wqStepSound_step) hc)⟩

/-- An item is delayed, then done at once, and its timer expires once it has been taken. -/
def expiresTaken : List WqStep :=
  [.submit 1 10, .timerStart 1, .submit 1 0, .work, .expire 1]

/-- An item is delayed while it is executed, and its timer expires before it is done. -/
def expiresRunning : List WqStep :=
  [.submit 1 0, .work, .submit 1 10, .timerStart 1, .expire 1, .enter, .timeout]

/-- A handler is called with no queue, an item is in the work list without its flag, and an accepted
submission is neither executed nor scheduled. -/
theorem workqueue_diverges :
    (∃ c, wqMachine.Reachable c ∧ c.handler = some (1, .called) ∧
      (c.queue.works 1).workqueue = false) ∧
    (∃ c, wqMachine.Reachable c ∧ 1 ∈ c.queue.work_list ∧ (c.queue.works 1).pending = false) ∧
    ∃ c, wqMachine.Reachable c ∧ c.owed 1 = some 1 ∧ some 1 ∉ c.executed ∧
      c.queue.work_list = [] ∧ c.queue.delayed_list = [] ∧
      (c.queue.works 1).timer = .detached ∧ c.handler = none := by
  have reach : ∀ {ls : List WqStep} {c : WqSystem},
      Machine.runs WqSystem.step newWorkqueue ls = some c → wqMachine.Reachable c :=
    fun hc => (Machine.Reachable.start newWorkqueue_fresh).runs (fun _ _ _ hs => hs) hc
  refine ⟨?_, ?_, ?_⟩
  · have hrun : ∃ c, Machine.runs WqSystem.step newWorkqueue expiresTaken = some c ∧
        c.handler = some (1, .called) ∧ (c.queue.works 1).workqueue = false := by
      decide +kernel
    obtain ⟨c, hc, h⟩ := hrun
    exact ⟨c, reach hc, h⟩
  · have hrun : ∃ c, Machine.runs WqSystem.step newWorkqueue [.critical 1] = some c ∧
        1 ∈ c.queue.work_list ∧ (c.queue.works 1).pending = false := by
      decide +kernel
    obtain ⟨c, hc, h⟩ := hrun
    exact ⟨c, reach hc, h⟩
  · have hrun : ∃ c, Machine.runs WqSystem.step newWorkqueue expiresRunning = some c ∧
        c.owed 1 = some 1 ∧ some 1 ∉ c.executed ∧ c.queue.work_list = [] ∧
        c.queue.delayed_list = [] ∧ (c.queue.works 1).timer = .detached ∧ c.handler = none := by
      decide +kernel
    obtain ⟨c, hc, h⟩ := hrun
    exact ⟨c, reach hc, h⟩

end Ab32Vg1.Drivers
