import Ab32Vg1.Kernel.Event

/-! Runs of the event.  While a send walks the list, the receivers it has passed are not satisfied:
the event set only shrinks. -/

namespace Ab32Vg1.Kernel

open ProofKit Rtos EvSystem

/-! ### Conditions -/

section

variable {wanted set set' : BitVec 32} {option : BitVec 8}

theorem Satisfied.mono (h : Satisfied wanted option set) (hle : set &&& set' = set) :
    Satisfied wanted option set' := by
  unfold Satisfied at h ⊢
  by_cases hand : option &&& RT_EVENT_FLAG_AND ≠ 0
  · rw [if_pos hand] at h ⊢
    rw [← h, ← hle]
    ext i hi
    simp only [BitVec.getElem_and]
    cases set[i] <;> cases set'[i] <;> cases wanted[i] <;> rfl
  · rw [if_neg hand] at h ⊢
    refine ⟨h.1, fun hzero => h.2 ?_⟩
    rw [← hle, BitVec.and_assoc, hzero]
    exact BitVec.and_zero

/-- What a receiver gets satisfies its condition. -/
theorem Satisfied.value (h : Satisfied wanted option set) :
    Satisfied wanted option (set &&& wanted) := by
  have hself : set &&& wanted &&& wanted = set &&& wanted := by
    rw [BitVec.and_assoc, BitVec.and_self]
  unfold Satisfied at h ⊢
  rwa [hself]

/-- Clearing everything that was wanted clears what was there of it. -/
theorem and_not_and (set wanted : BitVec 32) : set &&& ~~~(set &&& wanted) = set &&& ~~~wanted := by
  ext i hi
  simp only [BitVec.getElem_and, BitVec.getElem_not]
  cases set[i] <;> cases wanted[i] <;> rfl

theorem and_not_le (set bits : BitVec 32) : set &&& ~~~bits &&& set = set &&& ~~~bits := by
  rw [BitVec.and_comm, ← BitVec.and_assoc, BitVec.and_self]

end

/-! ### The invariant -/

namespace EvSystem

/-- Where the threads stand while a send has yet to walk over `next`. -/
structure EvInv (c : EvSystem) (next : List Tid) : Prop where
  inv : Inv c.os
  listed : ∀ t ∈ c.waiting, ∃ call, c.call t = some call ∧ (c.os.threads t).error = RT_EOK ∧
    (c.os.threads t).event_set = call.wanted ∧ (c.os.threads t).event_info = call.option ∧
    (call.option &&& RT_EVENT_FLAG_AND = 0 → call.option &&& RT_EVENT_FLAG_OR ≠ 0)
  passed : ∃ kept, c.waiting = kept ++ next ∧ ∀ t ∈ kept, ∀ call, c.call t = some call →
    ¬Satisfied call.wanted call.option c.event.set
  timer : ∀ t, c.call t ≠ none → (c.os.threads t).thread_timer.activated = true → t ∈ c.waiting
  unmatched : ∀ t call, c.call t = some call →
    t ∈ c.waiting ∨ (c.os.threads t).error ≠ RT_EOK → ∀ m, .matched m ∈ c.log → m.call.id ≠ call.id
  resumed : ∀ t call, c.call t = some call → t ∉ c.waiting → (c.os.threads t).error = RT_EOK →
    ∃ m, .matched m ∈ c.log ∧ m.call = call ∧ (c.os.threads t).event_set = m.value
  calls : ∀ t call, c.call t = some call → call.id < c.calls
  logged : ∀ m, .matched m ∈ c.log → m.call.id < c.calls ∧ Satisfied m.call.wanted m.call.option m.set
  distinct : ∀ t u call call', c.call t = some call → c.call u = some call' → call.id = call'.id →
    t = u
  pending : c.event.set = Signal.pending EvMatch.consumed c.log
  explained : Signal.Explained EvMatch.consumed EvMatch.set c.log

variable {c c' : EvSystem} {t : Tid} {next : List Tid}

theorem Fresh.evInv (h : Fresh c) : EvInv c [] := by
  refine ⟨h.inv, ?_, ⟨[], ?_, ?_⟩, ?_, ?_, ?_, ?_, ?_, ?_, ?_, ?_⟩
  · simp [h.waiting]
  · simp [h.waiting]
  · simp
  · simp [h.call]
  · simp [h.call]
  · simp [h.call]
  · simp [h.call]
  · simp [h.log]
  · simp [h.call]
  · rw [h.set, h.log]
    rfl
  · rw [h.log]
    trivial

/-- A receiver in the list is not satisfied once the walk is over. -/
theorem EvInv.not_satisfied (h : EvInv c []) (ht : t ∈ c.waiting) :
    ∃ call, c.call t = some call ∧ ¬Satisfied call.wanted call.option c.event.set := by
  obtain ⟨call, hcall, -⟩ := h.listed t ht
  obtain ⟨kept, hkept, hnot⟩ := h.passed
  rw [hkept, List.append_nil] at ht
  exact ⟨call, hcall, hnot t ht call hcall⟩

/-- Steps that leave the event and its threads alone. -/
theorem EvInv.elsewhere {os : Rtos} (h : EvInv c next)
    (he : Elsewhere (· = c.event.suspend_thread) (fun t => c.call t ≠ none) c.os os) :
    EvInv { c with os := os } next := by
  have hlist : os.suspend_thread c.event.suspend_thread = c.waiting := he.suspend _ rfl
  have hkept : ∀ {t call}, c.call t = some call → Kept (c.os.threads t) (os.threads t) :=
    fun hc => he.kept _ (by simp [hc])
  refine ⟨he.inv, fun t ht => ?_, ?_, fun t ht hact => ?_, fun t call hc hor => ?_,
    fun t call hc hnot herr => ?_, h.calls, h.logged, h.distinct, h.pending, h.explained⟩
  · obtain ⟨call, hc, h1, h2, h3, h4⟩ := h.listed t (hlist ▸ ht)
    have hk := hkept hc
    exact ⟨call, hc, hk.error.trans h1, hk.event_set.trans h2, hk.event_info.trans h3, h4⟩
  · obtain ⟨kept, hk, hnot⟩ := h.passed
    exact ⟨kept, hlist.trans hk, hnot⟩
  · show t ∈ os.suspend_thread c.event.suspend_thread
    rw [hlist]
    exact h.timer t ht ((he.kept t ht).timer hact)
  · refine h.unmatched t call hc (hor.imp (fun hm => hlist ▸ hm) fun herr => ?_)
    rwa [← (hkept hc).error]
  · have hout : t ∉ c.waiting := fun hm => hnot (show t ∈ os.suspend_thread _ from hlist.symm ▸ hm)
    obtain ⟨m, hm, h1, h2⟩ := h.resumed t call hc hout ((hkept hc).error.symm.trans herr)
    exact ⟨m, hm, h1, (hkept hc).event_set.trans h2⟩

/-- The fields of a thread that is outside `rt_event_recv` are free to change. -/
theorem EvInv.touch {f : Thread → Thread} (h : EvInv c next) (hidle : c.call t = none)
    (hinv : Inv (c.os.setThread t f)) : EvInv { c with os := c.os.setThread t f } next := by
  refine h.elsewhere ⟨hinv, fun l _ => rfl, fun u hu => ?_⟩
  have hut : u ≠ t := fun heq => hu (heq ▸ hidle)
  rw [setThread_of_ne _ t _ hut]
  exact Kept.refl _

/-- A new call that is not in progress. -/
theorem EvInv.newCall (h : EvInv c next) : EvInv { c with calls := c.calls + 1 } next :=
  ⟨h.inv, h.listed, h.passed, h.timer, h.unmatched, h.resumed,
    fun t call hc => Nat.lt_succ_of_lt (h.calls t call hc),
    fun m hm => ⟨Nat.lt_succ_of_lt (h.logged m hm).1, (h.logged m hm).2⟩, h.distinct, h.pending,
    h.explained⟩

/-- What a match leaves of the event set. -/
theorem consumed_set (set wanted : BitVec 32) (id : Nat) (option : BitVec 8) :
    (if option &&& RT_EVENT_FLAG_CLEAR ≠ 0 then set &&& ~~~wanted else set) =
      set &&& ~~~(EvMatch.consumed ⟨⟨id, wanted, option⟩, set⟩) := by
  unfold EvMatch.consumed
  by_cases hclear : option &&& RT_EVENT_FLAG_CLEAR ≠ 0
  · rw [if_pos hclear, if_pos hclear]
    exact (and_not_and set wanted).symm
  · rw [if_neg hclear, if_neg hclear]
    exact BitVec.and_allOnes.symm

/-- A receive that is satisfied at once. -/
theorem EvInv.matchNow {wanted : BitVec 32} {option : BitVec 8} {event : Event} (h : EvInv c [])
    (hsat : Satisfied wanted option c.event.set)
    (hset : event.set = c.event.set &&& ~~~(EvMatch.consumed ⟨⟨c.calls, wanted, option⟩, c.event.set⟩))
    (hlist : event.suspend_thread = c.event.suspend_thread) :
    EvInv { c with
      event := event, calls := c.calls + 1
      log := .matched ⟨⟨c.calls, wanted, option⟩, c.event.set⟩ :: c.log } [] := by
  have hwaiting : c.os.suspend_thread event.suspend_thread = c.waiting := by rw [hlist]; rfl
  obtain ⟨kept, hkept, hnot⟩ := h.passed
  refine ⟨h.inv, fun t ht => h.listed t (hwaiting ▸ ht), ⟨kept, hwaiting.trans hkept, ?_⟩,
    fun t ht hact => ?_, fun t call hc hor m hm => ?_, fun t call hc hmem herr => ?_,
    fun t call hc => Nat.lt_succ_of_lt (h.calls t call hc), fun m hm => ?_, h.distinct, ?_,
    ⟨h.pending, h.explained⟩⟩
  · intro t ht call hc hs
    refine hnot t ht call hc (hs.mono ?_)
    rw [hset]
    exact and_not_le _ _
  · show t ∈ c.os.suspend_thread event.suspend_thread
    rw [hwaiting]
    exact h.timer t ht hact
  · rcases List.mem_cons.mp hm with hm | hm
    · cases hm
      have hlt := h.calls t call hc
      exact fun heq => absurd heq (by dsimp only; omega)
    · exact h.unmatched t call hc (hor.imp (fun hm => hwaiting ▸ hm) id) m hm
  · have hout : t ∉ c.waiting := fun hm => hmem (show t ∈ c.os.suspend_thread _ from hwaiting.symm ▸ hm)
    obtain ⟨m, hm, h1, h2⟩ := h.resumed t call hc hout herr
    exact ⟨m, List.mem_cons_of_mem _ hm, h1, h2⟩
  · rcases List.mem_cons.mp hm with hm | hm
    · cases hm
      exact ⟨Nat.lt_succ_self _, hsat⟩
    · exact ⟨Nat.lt_succ_of_lt (h.logged m hm).1, (h.logged m hm).2⟩
  · rw [hset, Signal.pending, ← h.pending]

/-- A receiver begins to wait. -/
theorem EvInv.begins {wanted : BitVec 32} {option : BitVec 8} {os : Rtos} (h : EvInv c [])
    (hidle : c.call t = none) (hvalid : option &&& RT_EVENT_FLAG_AND = 0 →
      option &&& RT_EVENT_FLAG_OR ≠ 0)
    (hnot : ¬Satisfied wanted option c.event.set) (hw : Waits c.os os c.event.suspend_thread t)
    (hset : (c.os.threads t).event_set = wanted) (hinfo : (c.os.threads t).event_info = option) :
    EvInv { c with
      os := os, calls := c.calls + 1
      call := Function.update c.call t (some ⟨c.calls, wanted, option⟩) } [] := by
  have hmem : ∀ u, u ∈ os.suspend_thread c.event.suspend_thread ↔ u ∈ c.waiting ∨ u = t := by
    intro u
    rw [hw.mem]
    simp [waiting]
  have hold : ∀ {u call}, u ≠ t →
      Function.update c.call t (some ⟨c.calls, wanted, option⟩) u = some call →
      c.call u = some call := by
    intro u call hut hc
    rwa [Function.update_of_ne hut] at hc
  have hself : ∀ {call}, Function.update c.call t (some ⟨c.calls, wanted, option⟩) t = some call →
      call = ⟨c.calls, wanted, option⟩ := by
    intro call hc
    rw [Function.update_self] at hc
    exact (Option.some.inj hc).symm
  refine ⟨hw.inv, fun u hu => ?_, ⟨os.suspend_thread c.event.suspend_thread, ?_, ?_⟩,
    fun u hu hact => ?_, fun u call hc hor m hm => ?_, fun u call hc hout herr => ?_,
    fun u call hc => ?_, fun m hm => ?_, fun u v call call' hu hv hid => ?_, h.pending, h.explained⟩
  · by_cases hut : u = t
    · subst hut
      exact ⟨_, Function.update_self .., hw.error, hw.event_set.trans hset,
        hw.event_info.trans hinfo, hvalid⟩
    · obtain ⟨call, hc, h1, h2, h3, h4⟩ := h.listed u (((hmem u).mp hu).resolve_right hut)
      refine ⟨call, (Function.update_of_ne hut ..).trans hc, ?_, ?_, ?_, h4⟩
      · exact (congrArg Thread.error (hw.other u hut)).trans h1
      · exact (congrArg Thread.event_set (hw.other u hut)).trans h2
      · exact (congrArg Thread.event_info (hw.other u hut)).trans h3
  · rw [List.append_nil]
    rfl
  · intro u hu call hc
    by_cases hut : u = t
    · subst hut
      rw [hself hc]
      exact hnot
    · obtain ⟨call', hc', hnot'⟩ := h.not_satisfied (((hmem u).mp hu).resolve_right hut)
      obtain rfl := Option.some.inj ((hold hut hc).symm.trans hc')
      exact hnot'
  · refine (hmem u).mpr ?_
    by_cases hut : u = t
    · exact Or.inr hut
    · have hact' : (os.threads u).thread_timer.activated = true := hact
      rw [hw.other u hut] at hact'
      exact Or.inl (h.timer u (fun hnone => hu ((Function.update_of_ne hut ..).trans hnone)) hact')
  · by_cases hut : u = t
    · subst hut
      rw [hself hc]
      exact Nat.ne_of_lt (h.logged m hm).1
    · refine h.unmatched u call (hold hut hc) ?_ m hm
      refine hor.imp (fun hu => ((hmem u).mp hu).resolve_right hut) fun herr => ?_
      exact fun heq => herr ((congrArg Thread.error (hw.other u hut)).trans heq)
  · by_cases hut : u = t
    · exact absurd ((hmem u).mpr (Or.inr hut)) hout
    · have hth := hw.other u hut
      obtain ⟨m, hm, h1, h2⟩ := h.resumed u call (hold hut hc)
        (fun hu => hout ((hmem u).mpr (Or.inl hu))) ((congrArg Thread.error hth).symm.trans herr)
      exact ⟨m, hm, h1, (congrArg Thread.event_set hth).trans h2⟩
  · by_cases hut : u = t
    · subst hut
      rw [hself hc]
      exact Nat.lt_succ_self _
    · exact Nat.lt_succ_of_lt (h.calls u call (hold hut hc))
  · exact ⟨Nat.lt_succ_of_lt (h.logged m hm).1, (h.logged m hm).2⟩
  · by_cases hut : u = t <;> by_cases hvt : v = t
    · rw [hut, hvt]
    · subst hut
      have hlt := h.calls v call' (hold hvt hv)
      rw [hself hu] at hid
      exact absurd hid (by dsimp only; omega)
    · subst hvt
      have hlt := h.calls u call (hold hut hu)
      rw [hself hv] at hid
      exact absurd hid (by dsimp only; omega)
    · exact h.distinct u v call call' (hold hut hu) (hold hvt hv) hid

/-- A receiver that runs returns. -/
theorem EvInv.returned (h : EvInv c []) (hnot : t ∉ c.waiting) :
    EvInv { c with call := Function.update c.call t none } [] := by
  have hold : ∀ {u call}, Function.update c.call t none u = some call →
      u ≠ t ∧ c.call u = some call := by
    intro u call hc
    by_cases hut : u = t
    · subst hut
      rw [Function.update_self] at hc
      cases hc
    · rw [Function.update_of_ne hut] at hc
      exact ⟨hut, hc⟩
  obtain ⟨kept, hkept, hpassed⟩ := h.passed
  refine ⟨h.inv, fun u hu => ?_, ⟨kept, hkept, fun u hu call hc => hpassed u hu call (hold hc).2⟩,
    fun u hu hact => ?_, fun u call hc hor => h.unmatched u call (hold hc).2 hor,
    fun u call hc hout herr => h.resumed u call (hold hc).2 hout herr,
    fun u call hc => h.calls u call (hold hc).2, h.logged,
    fun u v call call' hu hv => h.distinct u v call call' (hold hu).2 (hold hv).2, h.pending,
    h.explained⟩
  · have hut : u ≠ t := fun heq => hnot (heq ▸ hu)
    obtain ⟨call, hc, hrest⟩ := h.listed u hu
    exact ⟨call, (Function.update_of_ne hut ..).trans hc, hrest⟩
  · have hut : u ≠ t := by
      rintro rfl
      exact hu (Function.update_self ..)
    exact h.timer u (fun hnone => hu ((Function.update_of_ne hut ..).trans hnone)) hact

/-- A receiver times out: it leaves the list and matches nothing. -/
theorem EvInv.timedOut {os : Rtos} (h : EvInv c []) (hto : TimedOut c.os os t)
    (hin : t ∈ c.waiting) : EvInv { c with os := os } [] := by
  have hmem : ∀ u, u ∈ os.suspend_thread c.event.suspend_thread ↔ u ∈ c.waiting ∧ u ≠ t := by
    intro u
    rw [hto.suspend, List.mem_filter]
    simp [waiting]
  refine ⟨hto.inv, fun u hu => ?_, ⟨os.suspend_thread c.event.suspend_thread, ?_, ?_⟩,
    fun u hu hact => ?_, fun u call hc hor m hm => ?_, fun u call hc hout herr => ?_, h.calls,
    h.logged, h.distinct, h.pending, h.explained⟩
  · obtain ⟨hu, hut⟩ := (hmem u).mp hu
    obtain ⟨call, hc, h1, h2, h3, h4⟩ := h.listed u hu
    have hk := hto.other u hut
    exact ⟨call, hc, hk.error.trans h1, hk.event_set.trans h2, hk.event_info.trans h3, h4⟩
  · rw [List.append_nil]
    rfl
  · intro u hu call hc
    obtain ⟨call', hc', hnot⟩ := h.not_satisfied ((hmem u).mp hu).1
    obtain rfl := Option.some.inj (hc.symm.trans hc')
    exact hnot
  · have hut : u ≠ t := by
      rintro rfl
      have hact' : (os.threads u).thread_timer.activated = true := hact
      rw [hto.timer] at hact'
      cases hact'
    exact (hmem u).mpr ⟨h.timer u hu ((hto.other u hut).timer hact), hut⟩
  · by_cases hut : u = t
    · subst hut
      exact h.unmatched u call hc (Or.inl hin) m hm
    · refine h.unmatched u call hc (hor.imp (fun hu => ((hmem u).mp hu).1) fun herr => ?_) m hm
      rwa [← (hto.other u hut).error]
  · have hut : u ≠ t := by
      rintro rfl
      have herr' : (os.threads u).error = RT_EOK := herr
      rw [hto.error] at herr'
      cases herr'
    have hk := hto.other u hut
    obtain ⟨m, hm, h1, h2⟩ := h.resumed u call hc (fun hu => hout ((hmem u).mpr ⟨hu, hut⟩))
      (hk.error.symm.trans herr)
    exact ⟨m, hm, h1, hk.event_set.trans h2⟩

/-! ### The walk -/

/-- The loop passes a receiver that is not satisfied. -/
theorem EvInv.pass {call : EvCall} (h : EvInv c (t :: next)) (hcall : c.call t = some call)
    (hnot : ¬Satisfied call.wanted call.option c.event.set) : EvInv c next := by
  obtain ⟨kept, hkept, hpassed⟩ := h.passed
  refine ⟨h.inv, h.listed, ⟨kept ++ [t], by simp [hkept], fun u hu call' hc => ?_⟩, h.timer,
    h.unmatched, h.resumed, h.calls, h.logged, h.distinct, h.pending, h.explained⟩
  rcases List.mem_append.mp hu with hu | hu
  · exact hpassed u hu call' hc
  · obtain rfl : u = t := by simpa using hu
    obtain rfl := Option.some.inj (hcall.symm.trans hc)
    exact hnot

/-- The loop resumes a receiver that is satisfied, with what it gets in its `event_set`. -/
theorem EvInv.matchWaiting {call : EvCall} (event : Event) (h : EvInv c (t :: next))
    (hcall : c.call t = some call) (hsat : Satisfied call.wanted call.option c.event.set)
    (hset : event.set = c.event.set &&& ~~~(EvMatch.consumed ⟨call, c.event.set⟩))
    (hlist : event.suspend_thread = c.event.suspend_thread) {s1 : Rtos}
    (hs1 : s1 = c.os.setThread t fun th =>
      { th with event_set := EvMatch.value ⟨call, c.event.set⟩ }) :
    EvInv { c with
      os := wake s1 t, event := event, log := .matched ⟨call, c.event.set⟩ :: c.log } next := by
  obtain ⟨kept, hkept, hpassed⟩ := h.passed
  have hin : t ∈ c.waiting := by simp [hkept]
  have hthread := h.inv.thread t (by simp)
  have hst : (s1.threads t).stat = .SUSPEND := by
    rw [hs1, setThread_self]
    exact hthread.waiting _ hin
  have hinv1 : Inv s1 := hs1 ▸ SchedInv.touch h.inv rfl rfl rfl rfl rfl hthread.timer
  have hnd := h.inv.suspend_nodup c.event.suspend_thread
  have hwaiting : (wake s1 t).suspend_thread event.suspend_thread = kept ++ next := by
    have hnd' : (kept ++ t :: next).Nodup := hkept ▸ hnd
    have hk : t ∉ kept := fun hm => (List.nodup_append.mp hnd').2.2 t hm t List.mem_cons_self rfl
    have hn : t ∉ next := (List.nodup_cons.mp (List.nodup_append.mp hnd').2.1).1
    rw [wake_suspend, hlist, hs1]
    show c.waiting.filter (· ≠ t) = kept ++ next
    rw [hkept, List.filter_append, filter_of_not_mem hk, List.filter_cons_of_neg (by simp),
      filter_of_not_mem hn]
  have hmem : ∀ u, u ∈ (wake s1 t).suspend_thread event.suspend_thread ↔ u ∈ c.waiting ∧ u ≠ t := by
    intro u
    rw [wake_suspend, hlist, hs1, List.mem_filter]
    simp [waiting]
  have hother : ∀ u, u ≠ t → (wake s1 t).threads u = c.os.threads u := fun u hut => by
    rw [wake_threads_of_ne hut, hs1, setThread_of_ne _ t _ hut]
  have hself : ((wake s1 t).threads t).event_set = EvMatch.value ⟨call, c.event.set⟩ ∧
      ((wake s1 t).threads t).error = (c.os.threads t).error := by
    rw [wake_threads_self, hs1, setThread_self]
    exact ⟨rfl, rfl⟩
  refine ⟨wake_inv hinv1 hst, fun u hu => ?_, ⟨kept, hwaiting, fun u hu call' hc hs => ?_⟩,
    fun u hu hact => ?_, fun u call' hc hor m hm => ?_, fun u call' hc hout herr => ?_, h.calls,
    fun m hm => ?_, h.distinct, ?_, ⟨h.pending, h.explained⟩⟩
  · obtain ⟨hu, hut⟩ := (hmem u).mp hu
    obtain ⟨call', hc, hrest⟩ := h.listed u hu
    refine ⟨call', hc, ?_⟩
    rw [hother u hut]
    exact hrest
  · refine hpassed u hu call' hc (hs.mono ?_)
    rw [hset]
    exact and_not_le _ _
  · have hut : u ≠ t := by
      rintro rfl
      rw [wake_threads_self] at hact
      cases hact
    rw [hother u hut] at hact
    exact (hmem u).mpr ⟨h.timer u hu hact, hut⟩
  · by_cases hut : u = t
    · -- the thread has left the list without an error
      subst hut
      obtain ⟨-, -, herr, -⟩ := h.listed u hin
      rcases hor with hu | herr'
      · exact absurd rfl ((hmem u).mp hu).2
      · exact absurd (hself.2.trans herr) herr'
    · rcases List.mem_cons.mp hm with hm | hm
      · cases hm
        exact fun hid => hut (h.distinct u t call' call hc hcall hid.symm)
      · rw [hother u hut] at hor
        exact h.unmatched u call' hc (hor.imp (fun hu => ((hmem u).mp hu).1) id) m hm
  · by_cases hut : u = t
    · subst hut
      obtain rfl := Option.some.inj (hcall.symm.trans hc)
      exact ⟨_, List.mem_cons_self, rfl, hself.1⟩
    · rw [hother u hut] at herr ⊢
      obtain ⟨m, hm, hrest⟩ := h.resumed u call' hc (fun hu => hout ((hmem u).mpr ⟨hu, hut⟩)) herr
      exact ⟨m, List.mem_cons_of_mem _ hm, hrest⟩
  · rcases List.mem_cons.mp hm with hm | hm
    · cases hm
      exact ⟨h.calls t call hcall, hsat⟩
    · exact h.logged m hm
  · rw [hset, Signal.pending, ← h.pending]

/-- One turn resumes the thread, and clears what it consumes. -/
theorem resume_eq {ev : Event} {s : Rtos} {set : BitVec 32} (call : EvCall) (h : Inv s)
    (hst : (s.threads t).stat = .SUSPEND) (hinfo : (s.threads t).event_info = call.option)
    (hvalue : (s.threads t).event_set = EvMatch.value ⟨call, set⟩) (hset : ev.set = set) :
    ev.resume s t = some (wake s t,
      { ev with set := set &&& ~~~(EvMatch.consumed ⟨call, set⟩) }) := by
  have hobject := (h.thread t (by simp)).object (by simp [hst])
  have hclear : (if call.option &&& RT_EVENT_FLAG_CLEAR ≠ 0 then
      { ev with set := ev.set &&& ~~~(EvMatch.value ⟨call, set⟩) } else ev) =
      { ev with set := set &&& ~~~(EvMatch.consumed ⟨call, set⟩) } := by
    unfold EvMatch.consumed
    dsimp only
    split
    · rw [hset]
    · rw [← hset]
      have hones : ev.set &&& ~~~0 = ev.set := BitVec.and_allOnes
      rw [hones]
  unfold Event.resume
  simp only [hinfo, hvalue, hclear, rt_thread_resume_eq hobject hst, Option.bind_eq_bind,
    Option.bind_some]
  rfl

/-- The loop walks over the rest of the list, and does not meet an invalid condition. -/
theorem EvInv.walk {need : Bool} {r : EventSent} (h : EvInv c next)
    (hs : Event.sendLoop next c.event c.os need = some r) :
    EvInv { c with
      os := r.os, event := r.event, log := (r.resumed.filterMap c.matchOf).reverse ++ c.log } [] := by
  induction next generalizing c need r with
  | nil =>
    obtain rfl := Option.some.inj hs
    exact h
  | cons t next ih =>
    have hin : t ∈ c.waiting := by
      obtain ⟨kept, hkept, -⟩ := h.passed
      simp [hkept]
    have hst := (h.inv.thread t (by simp)).waiting _ hin
    obtain ⟨call, hcall, herr, hwanted, hinfo, hvalid⟩ := h.listed t hin
    -- a match: the thread is resumed and the loop goes on
    have hmatch : ∀ {s1 : Rtos} {r' : EventSent}, s1 = (c.os.setThread t fun th =>
          { th with event_set := EvMatch.value ⟨call, c.event.set⟩ }) →
        Satisfied call.wanted call.option c.event.set →
        ((c.event.resume s1 t).bind fun x => (Event.sendLoop next x.2 x.1 true).bind fun r =>
          some { r with resumed := (t, c.event.set) :: r.resumed }) = some r' →
        EvInv { c with
          os := r'.os, event := r'.event
          log := (r'.resumed.filterMap c.matchOf).reverse ++ c.log } [] := by
      intro s1 r' hs1 hsat hs
      have hinv1 : Inv s1 := by
        rw [hs1]
        exact SchedInv.touch h.inv rfl rfl rfl rfl rfl (h.inv.thread t (by simp)).timer
      have hres := resume_eq call hinv1
        (by rw [hs1, setThread_self]; exact hst) (by rw [hs1, setThread_self]; exact hinfo)
        (by rw [hs1, setThread_self]) rfl
      rw [hres, Option.bind_some] at hs
      obtain ⟨r, hloop, hs⟩ := Option.bind_eq_some_iff.mp hs
      obtain rfl := Option.some.inj hs
      have hnext := h.matchWaiting
        { c.event with set := c.event.set &&& ~~~(EvMatch.consumed ⟨call, c.event.set⟩) }
        hcall hsat rfl rfl hs1
      have hdone := ih hnext hloop
      have hlog : (((t, c.event.set) :: r.resumed).filterMap c.matchOf).reverse ++ c.log =
          (r.resumed.filterMap c.matchOf).reverse ++ .matched ⟨call, c.event.set⟩ :: c.log := by
        rw [List.filterMap_cons]
        simp [matchOf, hcall]
      dsimp only
      rw [hlog]
      exact hdone
    unfold Event.sendLoop at hs
    dsimp only at hs
    rw [hinfo, hwanted] at hs
    by_cases hand : call.option &&& RT_EVENT_FLAG_AND ≠ 0
    · rw [if_pos hand] at hs
      by_cases hall : call.wanted &&& c.event.set = call.wanted
      · rw [if_pos hall] at hs
        have hall' : c.event.set &&& call.wanted = call.wanted := (BitVec.and_comm ..).trans hall
        refine hmatch (setThread_eq_self ?_).symm ?_ hs
        · rw [EvMatch.value, hall', ← hwanted]
        · rw [Satisfied, if_pos hand]
          exact hall'
      · rw [if_neg hall] at hs
        refine ih (h.pass hcall fun hsat => hall ?_) hs
        rw [Satisfied, if_pos hand] at hsat
        exact (BitVec.and_comm ..).trans hsat
    · rw [if_neg hand] at hs
      have hor := hvalid (not_not.mp hand)
      rw [if_pos hor] at hs
      by_cases hsome : call.wanted &&& c.event.set ≠ 0
      · rw [if_pos hsome] at hs
        refine hmatch ?_ ?_ hs
        · have hvalue : (c.os.threads t).event_set &&& c.event.set =
              EvMatch.value ⟨call, c.event.set⟩ := by
            rw [hwanted, EvMatch.value, BitVec.and_comm]
          unfold setThread
          dsimp only
          rw [hvalue]
        · rw [Satisfied, if_neg hand]
          exact ⟨hor, fun hzero => hsome ((BitVec.and_comm ..).trans hzero)⟩
      · rw [if_neg hsome] at hs
        refine ih (h.pass hcall fun hsat => hsome fun hzero => ?_) hs
        rw [Satisfied, if_neg hand] at hsat
        exact hsat.2 ((BitVec.and_comm ..).trans hzero)

theorem EvInv.send {set : BitVec 32} (h : EvInv c []) (hs : c.send set = some c') :
    EvInv c' [] := by
  obtain ⟨r, hr, rfl⟩ := Option.map_eq_some_iff.mp hs
  unfold Event.rt_event_send at hr
  -- every waiting receiver has yet to be looked at
  have hsent : EvInv { c with
      event := { c.event with set := c.event.set ||| set }, log := .sent set :: c.log }
      c.waiting := by
    refine ⟨h.inv, h.listed, ⟨[], rfl, by simp⟩, h.timer, fun t call hc hor m hm => ?_,
      fun t call hc hout herr => ?_, h.calls, fun m hm => ?_, h.distinct, ?_, h.explained⟩
    · exact h.unmatched t call hc hor m (by simpa using hm)
    · obtain ⟨m, hm, hrest⟩ := h.resumed t call hc hout herr
      exact ⟨m, List.mem_cons_of_mem _ hm, hrest⟩
    · exact h.logged m (by simpa using hm)
    · exact congrArg (· ||| set) h.pending
  by_cases hzero : set = 0
  · rw [if_pos hzero] at hr
    obtain rfl := Option.some.inj hr
    have hevent : { c.event with set := c.event.set ||| set } = c.event := by
      rw [hzero]
      simp
    rw [hevent] at hsent
    exact ⟨hsent.inv, hsent.listed, h.passed, hsent.timer, hsent.unmatched, hsent.resumed,
      hsent.calls, hsent.logged, hsent.distinct, hsent.pending, hsent.explained⟩
  · rw [if_neg hzero] at hr
    exact hsent.walk hr

/-! ### Receiving -/

/-- What a call returns, and stores, is what it matched; a call that times out matched nothing. -/
def RecvOk (c c' : EvSystem) (call : EvCall) (err : Int) (recved : Option (BitVec 32)) : Prop :=
  (err = RT_EOK → ∃ m, .matched m ∈ c'.log ∧ m.call = call ∧ recved = some m.value) ∧
    (err = -RT_ETIMEOUT → c'.event = c.event ∧ ∀ m, .matched m ∈ c'.log → m.call.id ≠ call.id)

theorem EvInv.recvChecked {set : BitVec 32} {option : BitVec 8} {timeout status : Int}
    {r : Rtos × Event × Outcome × Option (BitVec 32)} (h : EvInv c []) (hrun : Runs c.os t)
    (hidle : c.call t = none)
    (hvalid : option &&& RT_EVENT_FLAG_AND = 0 → option &&& RT_EVENT_FLAG_OR ≠ 0)
    (hstatus : status = if Satisfied set option c.event.set then RT_EOK else -RT_ERROR)
    (hs : c.event.recvChecked (c.os.setThread t fun th => { th with error := RT_EOK }) t set option
      timeout status = some r) :
    EvInv (c.afterRecv t set option r) [] ∧ ∀ err, r.2.2.1 = .returned err →
      c.RecvOk (c.afterRecv t set option r) ⟨c.calls, set, option⟩ err r.2.2.2 := by
  let s1 := c.os.setThread t fun th => { th with error := RT_EOK }
  have hinv1 : Inv s1 := resetError_inv h.inv RT_EOK
  have h1 : EvInv { c with os := s1 } [] := h.touch hidle hinv1
  have hinv2 : ∀ value : BitVec 32, Inv (s1.setThread t fun th =>
      { th with event_set := value, event_info := option }) := fun value =>
    SchedInv.touch hinv1 rfl rfl rfl rfl rfl (hinv1.thread t (by simp)).timer
  have h2 : ∀ value : BitVec 32, EvInv { c with os := s1.setThread t fun th =>
      { th with event_set := value, event_info := option } } [] := fun value =>
    h1.touch (c := { c with os := s1 }) hidle (hinv2 value)
  unfold Event.recvChecked at hs
  dsimp only at hs
  by_cases hsat : Satisfied set option c.event.set
  · rw [hstatus, if_pos hsat, if_pos rfl] at hs
    obtain rfl := Option.some.inj hs
    have herr : ((s1.setThread t fun th => { th with
        event_set := c.event.set &&& set, event_info := option }).threads t).error = RT_EOK := by
      rw [setThread_self, setThread_self]
    simp only [afterRecv]
    rw [if_pos herr]
    refine ⟨(h2 (c.event.set &&& set)).matchNow hsat ?_ ?_, fun err hret => ?_⟩
    · rw [← consumed_set c.event.set set c.calls option]
      split <;> rfl
    · split <;> rfl
    · obtain rfl : _ = err := Outcome.returned.inj hret
      refine ⟨fun _ => ⟨_, List.mem_cons_self, rfl, rfl⟩, fun hto => ?_⟩
      rw [herr] at hto
      cases hto
  · rw [hstatus, if_neg hsat, if_neg (by decide)] at hs
    by_cases htime : timeout = 0
    · rw [if_pos htime] at hs
      obtain rfl := Option.some.inj hs
      simp only [afterRecv]
      rw [if_neg (by decide)]
      refine ⟨(h1.touch (c := { c with os := s1 }) hidle (resetError_inv hinv1 _)).newCall,
        fun err hret => ?_⟩
      obtain rfl : _ = err := Outcome.returned.inj hret
      refine ⟨fun hok => absurd hok (by decide), fun _ => ⟨rfl, fun m hm => ?_⟩⟩
      exact Nat.ne_of_lt (h.logged m hm).1
    · rw [if_neg htime] at hs
      obtain ⟨os, hwait, hs⟩ := Option.bind_eq_some_iff.mp hs
      obtain rfl := Option.some.inj hs
      refine ⟨?_, fun err hret => by cases hret⟩
      have hw := suspendOn_waits (hinv2 set) (by simp [s1, hrun.2]) (by simp [s1]) hwait
      exact (h2 set).begins hidle hvalid hsat hw (by simp) (by simp)

theorem EvInv.recv {set : BitVec 32} {option : BitVec 8} {timeout : Int} (h : EvInv c [])
    (hs : c.recv t set option timeout = some c') : EvInv c' [] ∧ ∀ call err recved,
      c.returns (.recv t set option timeout) = some (call, err, recved) →
        c.RecvOk c' call err recved := by
  unfold EvSystem.recv at hs
  by_cases hcall : Runs c.os t ∧ c.call t = none
  · rw [if_pos hcall] at hs
    obtain ⟨r, hr, rfl⟩ := Option.map_eq_some_iff.mp hs
    have hspec : EvInv (c.afterRecv t set option r) [] ∧ ∀ err, r.2.2.1 = .returned err →
        c.RecvOk (c.afterRecv t set option r) ⟨c.calls, set, option⟩ err r.2.2.2 := by
      unfold Event.rt_event_recv at hr
      by_cases hzero : set = 0
      · rw [if_pos hzero] at hr
        obtain rfl := Option.some.inj hr
        simp only [afterRecv]
        rw [if_neg (by decide)]
        refine ⟨h.newCall, fun err hret => ?_⟩
        obtain rfl : _ = err := Outcome.returned.inj hret
        exact ⟨fun hok => absurd hok (by decide), fun hto => absurd hto (by decide)⟩
      · rw [if_neg hzero, hcall.1.1, Option.bind_eq_bind, Option.bind_some] at hr
        by_cases hand : option &&& RT_EVENT_FLAG_AND ≠ 0
        · rw [if_pos hand] at hr
          refine h.recvChecked hcall.1 hcall.2 (fun h0 => absurd h0 hand) ?_ hr
          simp only [Satisfied, if_pos hand]
        · rw [if_neg hand] at hr
          by_cases hor : option &&& RT_EVENT_FLAG_OR ≠ 0
          · rw [if_pos hor] at hr
            refine h.recvChecked hcall.1 hcall.2 (fun _ => hor) ?_ hr
            simp only [Satisfied, if_neg hand, hor, ne_eq, not_false_eq_true, true_and]
          · rw [if_neg hor] at hr
            cases hr
    refine ⟨hspec.1, fun call err recved hret => ?_⟩
    obtain ⟨os, event, outcome, value⟩ := r
    simp only [returns, hr] at hret
    cases outcome with
    | suspended => cases hret
    | returned err' =>
      cases hret
      exact hspec.2 err rfl
  · rw [if_neg hcall] at hs
    cases hs

theorem EvInv.recvResumed (h : EvInv c []) (hs : c.recvResumed t = some c') :
    EvInv c' [] ∧ ∀ call err recved,
      c.returns (.recvResumed t) = some (call, err, recved) → c.RecvOk c' call err recved := by
  unfold EvSystem.recvResumed at hs
  by_cases hrun : Runs c.os t ∧ c.call t ≠ none
  · rw [if_pos hrun] at hs
    obtain rfl := Option.some.inj hs
    have hnot : t ∉ c.waiting := hrun.1.not_waiting h.inv _
    refine ⟨h.returned hnot, fun call err recved hret => ?_⟩
    obtain ⟨call', hcall, hret⟩ := Option.map_eq_some_iff.mp hret
    simp only [Event.recvResumed] at hret
    by_cases herr : (c.os.threads t).error = RT_EOK
    · rw [if_neg (not_not.mpr herr)] at hret
      cases hret
      obtain ⟨m, hm, hmc, hset⟩ := h.resumed t call hcall hnot herr
      refine ⟨fun _ => ⟨m, hm, hmc, congrArg some hset⟩, fun hto => ?_⟩
      rw [herr] at hto
      cases hto
    · rw [if_pos herr] at hret
      cases hret
      exact ⟨fun hok => absurd hok herr, fun _ => ⟨rfl, h.unmatched t call hcall (Or.inr herr)⟩⟩
  · rw [if_neg hrun] at hs
    cases hs

theorem EvInv.timeout (h : EvInv c []) (hs : c.timeout t = some c') :
    EvInv c' [] ∧ c'.event = c.event ∧ c'.log = c.log := by
  unfold EvSystem.timeout at hs
  by_cases hact : c.call t ≠ none ∧ (c.os.threads t).thread_timer.activated = true
  · rw [if_pos hact] at hs
    obtain ⟨os, hos, rfl⟩ := Option.map_eq_some_iff.mp hs
    have hto := timerExpires_timedOut h.inv hos
    exact ⟨h.timedOut hto (h.timer t hact.1 hact.2), rfl, rfl⟩
  · rw [if_neg hact] at hs
    cases hs

theorem EvInv.step {l : EvStep} (h : EvInv c []) (hs : c.step l = some c') :
    EvInv c' [] ∧ ∀ call err recved,
      c.returns l = some (call, err, recved) → c.RecvOk c' call err recved := by
  cases l with
  | send set => exact ⟨h.send hs, fun _ _ _ hret => by cases hret⟩
  | recv t set option timeout => exact h.recv hs
  | recvResumed t => exact h.recvResumed hs
  | timeout t => exact ⟨(h.timeout hs).1, fun _ _ _ hret => by cases hret⟩
  | schedule =>
    obtain ⟨os, hos, rfl⟩ := Option.map_eq_some_iff.mp hs
    exact ⟨h.elsewhere (rt_schedule_elsewhere h.inv hos), fun _ _ _ hret => by cases hret⟩
  | other os => cases hs

theorem reachable_evInv (hr : evMachine.Reachable c) : EvInv c [] := by
  apply hr.invariant
  · exact fun c h => h.evInv
  · rintro c l c' - h (hs | ⟨os, -, rfl, he⟩)
    · exact (h.step hs).1
    · exact h.elsewhere he

end EvSystem

theorem event_delivery {c : EvSystem} (hr : evMachine.Reachable c) : EvContract c := by
  have h := reachable_evInv hr
  have hret : ∀ {l c' call err recved}, evMachine.step c l c' →
      c.returns l = some (call, err, recved) → c.RecvOk c' call err recved := by
    rintro l c' call err recved (hs | ⟨os, rfl, -, -⟩) hreturns
    · exact (h.step hs).2 call err recved hreturns
    · cases hreturns
  refine ⟨fun t ht => h.not_satisfied ht, h.pending, fun late m early hlog => ?_,
    fun late m mid k early i hlog hm hk => ?_, fun l c' call recved hs hr => (hret hs hr).1 rfl,
    fun l c' call recved hs hr => (hret hs hr).2 rfl, fun t c' hs => ?_⟩
  · have hmem : .matched m ∈ c.log := by simp [hlog]
    exact ⟨(hlog ▸ h.explained).seen_eq, (h.logged m hmem).2.value⟩
  · have hbit : m.set.getLsbD i = true := by
      rw [EvMatch.value, BitVec.getLsbD_and, Bool.and_eq_true] at hm
      exact hm.1
    exact (hlog ▸ h.explained).sent_between hbit hk
  · rcases hs with hs | ⟨os, hl, -, -⟩
    · exact (h.timeout hs).2
    · cases hl

/-- An empty event, used by nobody. -/
def emptyEvent (os : Rtos) : EvSystem :=
  { os := os, event := ⟨0, 0, .fifo⟩, call := fun _ => none, calls := 0, log := [] }

/-- Thread 1 waits for both of two bits, and consumes them; thread 2 waits for one of them.  A send
of both is for thread 1, and thread 2 times out. -/
def receiveBoth : List EvStep :=
  [.recv 1 3 5 (-1), .schedule, .recv 2 2 2 10, .schedule, .send 1, .send 2, .timeout 2, .schedule,
    .recvResumed 1]

theorem event_delivery_consumed : ∃ os, startedThreads = some os ∧
    ∃ c, Machine.runs EvSystem.step (emptyEvent os) receiveBoth = some c ∧
      c.event.set = 0 ∧ c.call 1 = none ∧ EvContract c := by
  have hrun : ∃ os, startedThreads = some os ∧
      ∃ c, Machine.runs EvSystem.step (emptyEvent os) receiveBoth = some c ∧
        c.event.set = 0 ∧ c.call 1 = none ∧ os.suspend_thread 0 = [] := by
    decide +kernel
  obtain ⟨os, hos, c, hc, hset, hcall, hlist⟩ := hrun
  have hfresh : (emptyEvent os).Fresh := ⟨startedThreads_inv hos, rfl, hlist, fun _ => rfl, rfl⟩
  refine ⟨os, hos, c, hc, hset, hcall, event_delivery ?_⟩
  exact (Machine.Reachable.start hfresh).runs (fun _ _ _ hs => Or.inl hs) hc

end Ab32Vg1.Kernel
