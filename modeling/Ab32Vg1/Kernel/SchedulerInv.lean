import Ab32Vg1.Kernel.ReadyQueue

/-! The invariant of the scheduler and what each step on a thread does to it.  While an operation
works on a thread, that thread is in no list and its control block is not constrained: the
invariant takes the thread `x` that floats, if any.  It also takes the thread `c` that may be
running, because `rt_schedule` replaces `rt_current_thread` before it is done with the old one. -/

namespace Ab32Vg1.Kernel

open Rtos

/-- The states in which the mask of a thread belongs to its priority. -/
def Started (stat : Stat) : Prop := stat = .READY ∨ stat = .RUNNING ∨ stat = .SUSPEND

/-- The control block of a thread agrees with the lists it is in. -/
structure ThreadOk (s : Rtos) (c : Option Tid) (t : Tid) : Prop where
  priority_lt : (s.threads t).current_priority < 32
  init_lt : (s.threads t).init_priority < 32
  mask : Started (s.threads t).stat →
    (s.threads t).number_mask = 1#32 <<< (s.threads t).current_priority
  queued : (s.threads t).stat = .READY → t ∈ s.rt_thread_priority_table (s.threads t).current_priority
  ready : ∀ p, t ∈ s.rt_thread_priority_table p →
    (s.threads t).stat = .READY ∧ (s.threads t).current_priority = p
  waiting : ∀ l, t ∈ s.suspend_thread l → (s.threads t).stat = .SUSPEND
  defunct : t ∈ s.rt_thread_defunct → (s.threads t).stat = .CLOSE ∧ (s.threads t).is_thread = true
  running : (s.threads t).stat = .RUNNING → c = some t
  current : c = some t → (s.threads t).stat ≠ .READY ∧ (s.threads t).stat ≠ .INIT
  timer : (s.threads t).thread_timer.activated = true → (s.threads t).stat = .SUSPEND
  object : (s.threads t).stat ≠ .CLOSE → (s.threads t).is_thread = true

/-- The thread is in no list. -/
structure Unlisted (s : Rtos) (t : Tid) : Prop where
  table : ∀ p, t ∉ s.rt_thread_priority_table p
  suspend : ∀ l, t ∉ s.suspend_thread l
  defunct : t ∉ s.rt_thread_defunct

structure SchedInv (s : Rtos) (x c : Option Tid) : Prop where
  thread : ∀ t, some t ≠ x → ThreadOk s c t
  unlisted : ∀ t, x = some t → Unlisted s t
  group : ∀ p, p < 32 →
    (s.rt_thread_ready_priority_group.getLsbD p = true ↔ s.rt_thread_priority_table p ≠ [])
  table_nodup : ∀ p, (s.rt_thread_priority_table p).Nodup
  suspend_nodup : ∀ l, (s.suspend_thread l).Nodup
  suspend_unique : ∀ t l l', t ∈ s.suspend_thread l → t ∈ s.suspend_thread l' → l = l'
  defunct_nodup : s.rt_thread_defunct.Nodup

/-- The invariant between operations. -/
def Inv (s : Rtos) : Prop := SchedInv s none s.rt_current_thread

section

variable {s : Rtos} {t : Tid} {x c : Option Tid}

/-- The control block of a floating thread is free to change. -/
theorem SchedInv.setThread (h : SchedInv s (some t) c) (f : Thread → Thread) :
    SchedInv (s.setThread t f) (some t) c where
  thread u hu := by
    have hne : u ≠ t := fun heq => hu (by rw [heq])
    obtain ⟨h1, h2, h3, h4, h5, h6, h7, h8, h9, h10, h11⟩ := h.thread u hu
    constructor <;> simp only [setThread_of_ne s t f hne] <;> assumption
  unlisted u hu := by
    obtain ⟨h1, h2, h3⟩ := h.unlisted u hu
    exact ⟨h1, h2, h3⟩
  group := h.group
  table_nodup := h.table_nodup
  suspend_nodup := h.suspend_nodup
  suspend_unique := h.suspend_unique
  defunct_nodup := h.defunct_nodup

/-- A floating thread that is neither ready nor in a list settles. -/
theorem SchedInv.settle (h : SchedInv s (some t) c) (hp : (s.threads t).current_priority < 32)
    (hi : (s.threads t).init_priority < 32)
    (hm : Started (s.threads t).stat →
      (s.threads t).number_mask = 1#32 <<< (s.threads t).current_priority)
    (hready : (s.threads t).stat ≠ .READY) (hrun : (s.threads t).stat = .RUNNING → c = some t)
    (hcur : c = some t → (s.threads t).stat ≠ .INIT)
    (htimer : (s.threads t).thread_timer.activated = true → (s.threads t).stat = .SUSPEND)
    (hobj : (s.threads t).stat ≠ .CLOSE → (s.threads t).is_thread = true) :
    SchedInv s none c where
  thread u hu := by
    by_cases heq : u = t
    · subst heq
      obtain ⟨h1, h2, h3⟩ := h.unlisted u rfl
      exact ⟨hp, hi, hm, fun hr => absurd hr hready, fun p hu => absurd hu (h1 p),
        fun l hu => absurd hu (h2 l), fun hu => absurd hu h3, hrun, fun hc => ⟨hready, hcur hc⟩, htimer, hobj⟩
    · exact h.thread u fun hut => heq (Option.some.inj hut)
  unlisted u hu := by simp at hu
  group := h.group
  table_nodup := h.table_nodup
  suspend_nodup := h.suspend_nodup
  suspend_unique := h.suspend_unique
  defunct_nodup := h.defunct_nodup

/-- A thread floats once it is off its list, if the group `g` agrees with the queues left. -/
theorem SchedInv.unlink {g : BitVec 32} (h : SchedInv s none c)
    (hg : ∀ p, p < 32 →
      (g.getLsbD p = true ↔ (s.rt_thread_priority_table p).filter (· ≠ t) ≠ [])) :
    SchedInv { s.rt_list_remove t with rt_thread_ready_priority_group := g } (some t) c where
  thread u hu := by
    have hne : u ≠ t := fun heq => hu (by rw [heq])
    obtain ⟨h1, h2, h3, h4, h5, h6, h7, h8, h9, h10, h11⟩ := h.thread u (by simp)
    refine ⟨h1, h2, h3, fun hr => ?_, fun p hp => ?_, fun l hl => ?_, fun hd => ?_, h8, h9, h10, h11⟩
    · exact List.mem_filter.mpr ⟨h4 hr, by simpa using hne⟩
    · exact h5 p (List.mem_filter.mp hp).1
    · exact h6 l (List.mem_filter.mp hl).1
    · exact h7 (List.mem_filter.mp hd).1
  unlisted u hu := by
    obtain rfl := Option.some.inj hu
    exact ⟨fun p hp => by simpa using (List.mem_filter.mp hp).2,
      fun l hl => by simpa using (List.mem_filter.mp hl).2,
      fun hd => by simpa using (List.mem_filter.mp hd).2⟩
  group := hg
  table_nodup p := (h.table_nodup p).filter _
  suspend_nodup l := (h.suspend_nodup l).filter _
  suspend_unique u l l' hl hl' :=
    h.suspend_unique u l l' (List.mem_filter.mp hl).1 (List.mem_filter.mp hl').1
  defunct_nodup := h.defunct_nodup.filter _

/-- A queue that does not hold the thread. -/
theorem SchedInv.filter_table {p : Nat} (h : SchedInv s none c)
    (hne : (s.threads t).stat = .READY → (s.threads t).current_priority ≠ p) :
    (s.rt_thread_priority_table p).filter (· ≠ t) = s.rt_thread_priority_table p := by
  apply List.filter_eq_self.mpr
  intro u hu
  have : u ≠ t := by
    rintro rfl
    obtain ⟨h1, h2⟩ := (h.thread u (by simp)).ready p hu
    exact hne h1 h2
  simpa using this

theorem SchedInv.rt_list_remove (h : SchedInv s none c) (hready : (s.threads t).stat ≠ .READY) :
    SchedInv (s.rt_list_remove t) (some t) c := by
  apply h.unlink
  intro p hp
  rw [h.filter_table fun hr => absurd hr hready]
  exact h.group p hp

theorem SchedInv.rt_schedule_remove_thread (h : SchedInv s none c)
    (hst : Started (s.threads t).stat) : SchedInv (s.rt_schedule_remove_thread t) (some t) c := by
  have ht := h.thread t (by simp)
  have hmask := ht.mask hst
  apply h.unlink
  intro p hp
  show ((if (s.rt_thread_priority_table (s.threads t).current_priority).filter (· ≠ t) = [] then
    s.rt_thread_ready_priority_group &&& ~~~(s.threads t).number_mask
    else s.rt_thread_ready_priority_group).getLsbD p = true ↔ _)
  by_cases hpt : p = (s.threads t).current_priority
  · -- the queue of the thread
    rw [← hpt]
    by_cases hempty : (s.rt_thread_priority_table p).filter (· ≠ t) = []
    · rw [if_pos hempty, hmask, ← hpt, getLsbD_and_not_mask hp, hempty]
      simp
    · rw [if_neg hempty, h.group p hp]
      refine iff_of_true (fun hnil => hempty ?_) hempty
      rw [hnil]
      rfl
  · rw [h.filter_table fun _ => Ne.symm hpt, ← h.group p hp]
    by_cases hempty : (s.rt_thread_priority_table (s.threads t).current_priority).filter (· ≠ t) = []
    · rw [if_pos hempty, hmask, getLsbD_and_not_mask hp]
      simp [hpt]
    · rw [if_neg hempty]

theorem mem_update_append {T : Nat → List Tid} {p q : Nat} {u : Tid} :
    u ∈ Function.update T q (T q ++ [t]) p ↔ u ∈ T p ∨ p = q ∧ u = t := by
  by_cases hpq : p = q
  · subst hpq
    simp
  · simp [hpq]

/-- The state in which `rt_schedule_insert_thread` has queued the thread. -/
theorem insert_of_ne_current (hc : s.rt_current_thread ≠ some t) :
    s.rt_schedule_insert_thread t =
      { s.setThread t fun th => { th with stat := .READY } with
        rt_thread_priority_table :=
          Function.update s.rt_thread_priority_table (s.threads t).current_priority
            (s.rt_thread_priority_table (s.threads t).current_priority ++ [t])
        rt_thread_ready_priority_group :=
          s.rt_thread_ready_priority_group ||| (s.threads t).number_mask } := by
  rw [Rtos.rt_schedule_insert_thread, if_neg hc]
  simp only [setThread_self, setThread_table, setThread_group]

theorem insert_of_current (hc : s.rt_current_thread = some t) :
    s.rt_schedule_insert_thread t = s.setThread t fun th => { th with stat := .RUNNING } :=
  if_pos hc

/-- `rt_schedule_insert_thread` queues a floating thread, or lets the current thread run. -/
theorem SchedInv.rt_schedule_insert_thread (h : SchedInv s (some t) c)
    (hp : (s.threads t).current_priority < 32) (hi : (s.threads t).init_priority < 32)
    (hm : (s.threads t).number_mask = 1#32 <<< (s.threads t).current_priority)
    (hcur : s.rt_current_thread = some t ↔ c = some t)
    (htimer : (s.threads t).thread_timer.activated = false)
    (hobj : (s.threads t).is_thread = true) :
    SchedInv (s.rt_schedule_insert_thread t) none c := by
  by_cases hc : s.rt_current_thread = some t
  · rw [insert_of_current hc]
    have hf := h.setThread fun th => { th with stat := .RUNNING }
    apply hf.settle <;> simp [hp, hi, hm, hcur.mp hc, htimer, hobj]
  · rw [insert_of_ne_current hc]
    obtain ⟨hu1, hu2, hu3⟩ := h.unlisted t rfl
    have hct : c ≠ some t := fun heq => hc (hcur.mpr heq)
    refine ⟨fun u _ => ?_, fun u hu => by simp at hu, fun p hp32 => ?_, fun p => ?_,
      h.suspend_nodup, h.suspend_unique, h.defunct_nodup⟩
    · by_cases hut : u = t
      · subst hut
        constructor <;> simp only [setThread_self, setThread_suspend, setThread_defunct,
          mem_update_append]
        · exact hp
        · exact hi
        · exact fun _ => hm
        · exact fun _ => Or.inr ⟨trivial, trivial⟩
        · rintro p (hup | ⟨rfl, -⟩)
          · exact absurd hup (hu1 p)
          · simp
        · exact fun l hl => absurd hl (hu2 l)
        · exact fun hd => absurd hd hu3
        · exact fun hr => absurd hr (by simp)
        · exact fun heq => absurd heq hct
        · simp [htimer]
        · exact fun _ => hobj
      · obtain ⟨h1, h2, h3, h4, h5, h6, h7, h8, h9, h10, h11⟩ :=
          h.thread u fun heq => hut (Option.some.inj heq)
        constructor <;> simp only [setThread_of_ne s t _ hut, setThread_suspend, setThread_defunct,
          mem_update_append]
        · exact h1
        · exact h2
        · exact h3
        · exact fun hr => Or.inl (h4 hr)
        · rintro p (hup | ⟨-, hut'⟩)
          · exact h5 p hup
          · exact absurd hut' hut
        · exact h6
        · exact h7
        · exact h8
        · exact h9
        · exact h10
        · exact h11
    · simp only [hm]
      rw [getLsbD_or_mask hp32]
      by_cases hpt : p = (s.threads t).current_priority
      · subst hpt
        simp
      · simpa [Function.update_of_ne hpt, hpt] using h.group p hp32
    · by_cases hpt : p = (s.threads t).current_priority
      · subst hpt
        simp only [Function.update_self]
        refine List.nodup_append.mpr ⟨h.table_nodup _, List.nodup_singleton t, ?_⟩
        rintro a ha b hb rfl
        obtain rfl := List.mem_singleton.mp hb
        exact hu1 _ ha
      · simp only [Function.update_of_ne hpt]
        exact h.table_nodup p

theorem mem_insertByPriority {priority : Tid → Nat} {us : List Tid} {u : Tid} :
    u ∈ insertByPriority priority t us ↔ u ∈ us ∨ u = t := by
  induction us with
  | nil => simp [insertByPriority]
  | cons v us ih =>
    rw [insertByPriority]
    split
    · simp only [List.mem_cons]
      tauto
    · rw [List.mem_cons, ih, List.mem_cons, or_assoc]

theorem insertByPriority_nodup {priority : Tid → Nat} {us : List Tid} (h : us.Nodup) (ht : t ∉ us) :
    (insertByPriority priority t us).Nodup := by
  induction us with
  | nil => simp [insertByPriority]
  | cons v us ih =>
    obtain ⟨hv, hus⟩ := List.nodup_cons.mp h
    rw [List.mem_cons, not_or] at ht
    rw [insertByPriority]
    split
    · exact List.nodup_cons.mpr ⟨by simpa using ht, h⟩
    · refine List.nodup_cons.mpr ⟨?_, ih hus ht.2⟩
      rw [mem_insertByPriority, not_or]
      exact ⟨hv, fun heq => ht.1 heq.symm⟩

/-- The list that a thread enters when it begins to wait. -/
def waitingAfter (s : Rtos) (l : Nat) (t : Tid) (flag : IpcFlag) : List Tid :=
  match flag with
  | .fifo => s.suspend_thread l ++ [t]
  | .prio => insertByPriority (fun u => (s.threads u).current_priority) t (s.suspend_thread l)

theorem mem_waitingAfter {l : Nat} {flag : IpcFlag} {u : Tid} :
    u ∈ waitingAfter s l t flag ↔ u ∈ s.suspend_thread l ∨ u = t := by
  cases flag
  · simp [waitingAfter]
  · exact mem_insertByPriority

theorem mem_insertWaiting {l l' : Nat} {flag : IpcFlag} {u : Tid} :
    u ∈ (s.insertWaiting l t flag).suspend_thread l' ↔
      u ∈ s.suspend_thread l' ∨ l' = l ∧ u = t := by
  show u ∈ Function.update s.suspend_thread l (waitingAfter s l t flag) l' ↔ _
  by_cases hl : l' = l
  · subst hl
    rw [Function.update_self, mem_waitingAfter]
    simp
  · rw [Function.update_of_ne hl]
    simp [hl]

/-- A suspended floating thread enters a list of waiting threads. -/
theorem SchedInv.insertWaiting {l : Nat} {flag : IpcFlag} (h : SchedInv s (some t) c)
    (hp : (s.threads t).current_priority < 32) (hi : (s.threads t).init_priority < 32)
    (hm : (s.threads t).number_mask = 1#32 <<< (s.threads t).current_priority)
    (hst : (s.threads t).stat = .SUSPEND) (hobj : (s.threads t).is_thread = true) :
    SchedInv (s.insertWaiting l t flag) none c := by
  obtain ⟨hu1, hu2, hu3⟩ := h.unlisted t rfl
  refine ⟨fun u _ => ?_, fun u hu => by simp at hu, h.group, h.table_nodup, fun l' => ?_,
    fun u l1 l2 h1 h2 => ?_, h.defunct_nodup⟩
  · by_cases hut : u = t
    · subst hut
      refine ⟨hp, hi, fun _ => hm, fun hr => ?_, fun p hup => absurd hup (hu1 p), fun _ _ => hst,
        fun hd => absurd hd hu3, fun hr => ?_, fun _ => ?_, fun _ => hst, fun _ => hobj⟩
      · rw [show ((s.insertWaiting l u flag).threads u).stat = .SUSPEND from hst] at hr
        cases hr
      · rw [show ((s.insertWaiting l u flag).threads u).stat = .SUSPEND from hst] at hr
        cases hr
      · rw [show ((s.insertWaiting l u flag).threads u).stat = .SUSPEND from hst]
        simp
    · obtain ⟨h1, h2, h3, h4, h5, h6, h7, h8, h9, h10, h11⟩ :=
        h.thread u fun heq => hut (Option.some.inj heq)
      refine ⟨h1, h2, h3, h4, h5, fun l' hl' => ?_, h7, h8, h9, h10, h11⟩
      rcases mem_insertWaiting.mp hl' with hl' | ⟨-, heq⟩
      · exact h6 l' hl'
      · exact absurd heq hut
  · show (Function.update s.suspend_thread l (waitingAfter s l t flag) l').Nodup
    by_cases hl : l' = l
    · subst hl
      rw [Function.update_self]
      cases flag
      · refine List.nodup_append.mpr ⟨h.suspend_nodup _, List.nodup_singleton t, ?_⟩
        rintro a ha b hb rfl
        obtain rfl := List.mem_singleton.mp hb
        exact hu2 _ ha
      · exact insertByPriority_nodup (h.suspend_nodup _) (hu2 _)
    · rw [Function.update_of_ne hl]
      exact h.suspend_nodup l'
  · rcases mem_insertWaiting.mp h1 with hl1 | ⟨rfl, rfl⟩
    · rcases mem_insertWaiting.mp h2 with hl2 | ⟨rfl, rfl⟩
      · exact h.suspend_unique u l1 l2 hl1 hl2
      · exact absurd hl1 (hu2 _)
    · rcases mem_insertWaiting.mp h2 with hl2 | ⟨rfl, -⟩
      · exact absurd hl2 (hu2 _)
      · rfl

/-- A closed floating thread enters the list of defunct threads. -/
theorem SchedInv.insertDefunct (h : SchedInv s (some t) c)
    (hp : (s.threads t).current_priority < 32) (hi : (s.threads t).init_priority < 32)
    (hst : (s.threads t).stat = .CLOSE) (hth : (s.threads t).is_thread = true)
    (htimer : (s.threads t).thread_timer.activated = false) :
    SchedInv { s with rt_thread_defunct := t :: s.rt_thread_defunct } none c := by
  obtain ⟨hu1, hu2, hu3⟩ := h.unlisted t rfl
  refine ⟨fun u _ => ?_, fun u hu => by simp at hu, h.group, h.table_nodup, h.suspend_nodup,
    h.suspend_unique, List.nodup_cons.mpr ⟨hu3, h.defunct_nodup⟩⟩
  by_cases hut : u = t
  · subst hut
    constructor
    · exact hp
    · exact hi
    · simp [Started, hst]
    · simp [hst]
    · exact fun p hup => absurd hup (hu1 p)
    · exact fun l hl => absurd hl (hu2 l)
    · exact fun _ => ⟨hst, hth⟩
    · simp [hst]
    · simp [hst]
    · simp [htimer]
    · exact fun _ => hth
  · obtain ⟨h1, h2, h3, h4, h5, h6, h7, h8, h9, h10, h11⟩ :=
      h.thread u fun heq => hut (Option.some.inj heq)
    refine ⟨h1, h2, h3, h4, h5, h6, fun hd => ?_, h8, h9, h10, h11⟩
    rcases List.mem_cons.mp hd with heq | hd
    · exact absurd heq hut
    · exact h7 hd

end

end Ab32Vg1.Kernel
