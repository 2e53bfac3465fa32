import Ab32Vg1.Drivers.DataQueue

/-! Runs of the data queue: every push and pop changes the array and the abstract queue together. -/

namespace Ab32Vg1.Drivers

open ProofKit Kernel Rtos DataQueueEvent

namespace DataQueue

/-- How a part of a push ends. -/
inductive PushEnds (dq : DataQueue) (item : DqItem) :
    Rtos × DataQueue × Outcome × Option DataQueueEvent → Prop where
  | full {os : Rtos} {err : Int} {event} (herr : err ≠ RT_EOK) :
      PushEnds dq item (os, dq, .returned err, event)
  | waits {os : Rtos} {event} : PushEnds dq item (os, dq, .suspended, event)
  | pushed {os : Rtos} {event} (hroom : dq.is_full = false) :
      PushEnds dq item (os, dq.stored item, .returned RT_EOK, event)

/-- How a part of a pop ends. -/
inductive PopEnds (dq : DataQueue) :
    Rtos × DataQueue × Outcome × Option DqItem × Option DataQueueEvent → Prop where
  | empty {os : Rtos} {err : Int} {event} (herr : err ≠ RT_EOK) :
      PopEnds dq (os, dq, .returned err, none, event)
  | waits {os : Rtos} {event} : PopEnds dq (os, dq, .suspended, none, event)
  | popped {os : Rtos} {event} (hsome : dq.is_empty = false) :
      PopEnds dq (os, dq.taken, .returned RT_EOK, some (dq.queue dq.get_index), event)

variable {dq : DataQueue} {s : Rtos} {item : DqItem} {timeout : Int} {t : Tid}

theorem put_ends {r} (hroom : dq.is_full = false) (h : dq.put s item = some r) :
    dq.PushEnds item r := by
  rw [put] at h
  split at h
  · obtain ⟨os, -, h⟩ := Option.bind_eq_some_iff.mp h
    obtain rfl := Option.some.inj h
    exact .pushed hroom
  · obtain rfl := Option.some.inj h
    exact .pushed hroom

theorem push_ends {r} (h : dq.rt_data_queue_push s item timeout = some r) : dq.PushEnds item r := by
  rw [rt_data_queue_push] at h
  cases hfull : dq.is_full with
  | false =>
    rw [hfull, if_neg Bool.false_ne_true] at h
    exact put_ends hfull h
  | true =>
    rw [hfull, if_pos rfl] at h
    by_cases htime : timeout = 0
    · rw [if_pos htime] at h
      obtain rfl := Option.some.inj h
      exact .full (by decide)
    · rw [if_neg htime] at h
      obtain ⟨thread, -, h⟩ := Option.bind_eq_some_iff.mp h
      obtain ⟨os, -, h⟩ := Option.bind_eq_some_iff.mp h
      obtain rfl := Option.some.inj h
      exact .waits

theorem pushResumed_ends {r} (h : dq.pushResumed s t item timeout = some r) :
    dq.PushEnds item r := by
  rw [pushResumed] at h
  split at h
  · next herr =>
    obtain rfl := Option.some.inj h
    exact .full herr
  · exact push_ends h

theorem get_ends {r} (hsome : dq.is_empty = false) (h : dq.get s = some r) : dq.PopEnds r := by
  rw [get] at h
  split at h
  · split at h
    · obtain ⟨os, -, h⟩ := Option.bind_eq_some_iff.mp h
      obtain rfl := Option.some.inj h
      exact .popped hsome
    · obtain rfl := Option.some.inj h
      exact .popped hsome
  · obtain rfl := Option.some.inj h
    exact .popped hsome

theorem pop_ends {r} (h : dq.rt_data_queue_pop s timeout = some r) : dq.PopEnds r := by
  rw [rt_data_queue_pop] at h
  cases hempty : dq.is_empty with
  | false =>
    rw [hempty, if_neg Bool.false_ne_true] at h
    exact get_ends hempty h
  | true =>
    rw [hempty, if_pos rfl] at h
    by_cases htime : timeout = 0
    · rw [if_pos htime] at h
      obtain rfl := Option.some.inj h
      exact .empty (by decide)
    · rw [if_neg htime] at h
      obtain ⟨thread, -, h⟩ := Option.bind_eq_some_iff.mp h
      obtain ⟨os, -, h⟩ := Option.bind_eq_some_iff.mp h
      obtain rfl := Option.some.inj h
      exact .waits

theorem popResumed_ends {r} (h : dq.popResumed s t timeout = some r) : dq.PopEnds r := by
  rw [popResumed] at h
  split at h
  · next herr =>
    obtain rfl := Option.some.inj h
    exact .empty herr
  · exact pop_ends h

/-- An index that fits 15 bits goes round the array. -/
theorem nextIndex_eq {index : Nat} (hsize : dq.size ≤ 2 ^ 15) (hi : index < dq.size) :
    dq.nextIndex index = Ring.next dq.size index := by
  rw [nextIndex, Ring.next]
  split <;> split <;> omega

end DataQueue

/-! ### The array and the abstract queue -/

theorem slot_eq_self {size out n : Nat} (hout : out < size) (hn : n ≤ size) :
    Ring.slot size out n = out ↔ n = 0 ∨ n = size := by
  rw [Ring.slot]
  split <;> omega

namespace DqSystem

/-- The array holds the abstract queue, and the flags tell an empty queue from a full one. -/
structure DqData (c : DqSystem) : Prop where
  size_pos : 0 < c.dq.size
  pool : Ring.Holds c.dq.queue c.dq.size c.dq.put_index c.dq.get_index c.queue
  empty : c.dq.is_empty = true ↔ c.queue.length = 0
  full : c.dq.is_full = true ↔ c.queue.length = c.dq.size
  in_order : c.pushed = c.popped ++ c.queue

variable {c c' : DqSystem}

theorem DqData.congr (h : DqData c) (hdq : c'.dq = c.dq) (hq : c'.queue = c.queue)
    (hpush : c'.pushed = c.pushed) (hpop : c'.popped = c.popped) : DqData c' := by
  obtain ⟨h1, h2, h3, h4, h5⟩ := h
  constructor <;> simp only [hdq, hq, hpush, hpop] <;> assumption

theorem Fresh.dqData (h : Fresh c) : DqData c := by
  obtain ⟨lwm, evt_notify, queue, push_list, pop_list, hdq⟩ := h.init
  have hsize := h.size_pos
  have hempty : c.dq.is_empty = true := by rw [hdq]; rfl
  have hfull : c.dq.is_full = false := by rw [hdq]; rfl
  have hput : c.dq.put_index = 0 := by rw [hdq]; rfl
  have hget : c.dq.get_index = 0 := by rw [hdq]; rfl
  refine ⟨hsize, ?_, ?_, ?_, ?_⟩
  · rw [h.queue, hput, hget]
    exact Ring.Holds.empty _ _
  · rw [h.queue, hempty]
    exact ⟨fun _ => rfl, fun _ => rfl⟩
  · rw [h.queue, hfull, List.length_nil]
    exact ⟨(fun h => by cases h), fun h => by omega⟩
  · rw [h.queue, h.pushed, h.popped]
    rfl

theorem DqData.flags (h : DqData c) : ¬(c.dq.is_empty = true ∧ c.dq.is_full = true) := by
  rintro ⟨hempty, hfull⟩
  have := h.size_pos
  have := h.empty.mp hempty
  have := h.full.mp hfull
  omega

/-- The index after the last item is that of the first one when the queue is empty or full. -/
theorem DqData.put_eq_get (h : DqData c) :
    c.dq.put_index = c.dq.get_index ↔ c.queue.length = 0 ∨ c.queue.length = c.dq.size := by
  rw [h.pool.inp_eq h.size_pos]
  exact slot_eq_self (h.pool.out_lt h.size_pos) h.pool.room

theorem DqData.put_lt (h : DqData c) : c.dq.put_index < c.dq.size := by
  have hout := h.pool.out_lt h.size_pos
  have hroom := h.pool.room
  rw [h.pool.inp_eq h.size_pos, Ring.slot]
  split <;> omega

/-- Between the flags, the indices give the length. -/
theorem DqData.measured (h : DqData c) (hsize : c.dq.size ≤ 2 ^ 15) (hempty : c.dq.is_empty = false) :
    c.dq.measured = c.queue.length := by
  have hout := h.pool.out_lt h.size_pos
  have hroom := h.pool.room
  have hpos : c.queue.length ≠ 0 := fun h0 => by simp [h.empty.mpr h0] at hempty
  have hput := h.pool.inp_eq h.size_pos
  rw [Ring.slot] at hput
  rw [DataQueue.measured]
  split at hput <;> split <;> omega

/-- A push on a queue with room. -/
theorem DqData.push {os : Rtos} {pc : Tid → DqPc} {item : DqItem} (h : DqData c)
    (hsize : c.dq.size ≤ 2 ^ 15) (hroom : c.dq.is_full = false) :
    DqData { c with
      os := os, dq := c.dq.stored item, pc := pc, queue := c.queue ++ [item]
      pushed := c.pushed ++ [item] } := by
  have hle := h.pool.room
  have hlt : c.queue.length < c.dq.size := by
    have hne : c.queue.length ≠ c.dq.size := fun heq => by simp [h.full.mpr heq] at hroom
    omega
  have hnext := DataQueue.nextIndex_eq hsize h.put_lt
  have hpool : Ring.Holds (Function.update c.dq.queue c.dq.put_index item) c.dq.size
      (c.dq.nextIndex c.dq.put_index) c.dq.get_index (c.queue ++ [item]) := by
    rw [hnext]
    exact h.pool.pushBack hlt
  refine ⟨h.size_pos, hpool, ?_, ?_, ?_⟩
  · show false = true ↔ (c.queue ++ [item]).length = 0
    simp
  · show (if c.dq.nextIndex c.dq.put_index = c.dq.get_index then true else c.dq.is_full) = true ↔ _
    have heq : c.dq.nextIndex c.dq.put_index = c.dq.get_index ↔
        (c.queue ++ [item]).length = c.dq.size := by
      rw [hpool.inp_eq h.size_pos, slot_eq_self (h.pool.out_lt h.size_pos) hpool.room]
      simp
    rw [hroom]
    by_cases hwrap : c.dq.nextIndex c.dq.put_index = c.dq.get_index
    · rw [if_pos hwrap]
      exact ⟨fun _ => heq.mp hwrap, fun _ => rfl⟩
    · rw [if_neg hwrap]
      exact ⟨(fun h => by cases h), fun h => absurd (heq.mpr h) hwrap⟩
  · show c.pushed ++ [item] = c.popped ++ (c.queue ++ [item])
    rw [h.in_order, List.append_assoc]

/-- A pop on a queue that is not empty. -/
theorem DqData.pop (h : DqData c) (hsize : c.dq.size ≤ 2 ^ 15) (hsome : c.dq.is_empty = false) :
    ∃ queue, c.queue = c.dq.queue c.dq.get_index :: queue ∧ ∀ (os : Rtos) (pc : Tid → DqPc),
      DqData { c with
        os := os, dq := c.dq.taken, pc := pc, queue := queue
        popped := c.popped ++ [c.dq.queue c.dq.get_index] } := by
  cases hq : c.queue with
  | nil =>
    have := h.empty.mpr (by rw [hq]; rfl)
    simp [this] at hsome
  | cons item queue =>
    have hpool := h.pool
    rw [hq] at hpool
    have hfront := hpool.front
    have hroom := hpool.room
    rw [List.length_cons] at hroom
    have hnext := DataQueue.nextIndex_eq hsize (h.pool.out_lt h.size_pos)
    have hpool' := hpool.popFront
    rw [← hnext] at hpool'
    refine ⟨queue, by rw [hfront], fun os pc => ⟨h.size_pos, hpool', ?_, ?_, ?_⟩⟩
    · show (if c.dq.put_index = c.dq.nextIndex c.dq.get_index then true else c.dq.is_empty) = true ↔ _
      have heq : c.dq.put_index = c.dq.nextIndex c.dq.get_index ↔ queue.length = 0 := by
        rw [hpool'.inp_eq h.size_pos, slot_eq_self (hpool'.out_lt h.size_pos) hpool'.room]
        omega
      rw [hsome]
      by_cases hwrap : c.dq.put_index = c.dq.nextIndex c.dq.get_index
      · rw [if_pos hwrap]
        exact ⟨fun _ => heq.mp hwrap, fun _ => rfl⟩
      · rw [if_neg hwrap]
        exact ⟨(fun h => by cases h), fun h => absurd (heq.mpr h) hwrap⟩
    · show false = true ↔ queue.length = c.dq.size
      exact ⟨(fun h => by cases h), fun h => by omega⟩
    · show c.pushed = c.popped ++ [c.dq.queue c.dq.get_index] ++ queue
      rw [h.in_order, hq, hfront, List.append_assoc, List.singleton_append]

/-! ### Steps -/

theorem setPc_os (c : DqSystem) (caller : Option Tid) (pc : DqPc) :
    ∃ pc', c.setPc caller pc = { c with pc := pc' } := by
  cases caller with
  | none => exact ⟨c.pc, rfl⟩
  | some t => exact ⟨_, rfl⟩

/-- What a step does to the queue: `ok` if it returns `RT_EOK`, else nothing. -/
def Ends (c : DqSystem) (o : DqOutcome) (ok : Prop) (c' : DqSystem) : Prop :=
  if o = .returned RT_EOK then ok else c.Unchanged c'

theorem Ends.unchanged {o : DqOutcome} {ok : Prop} (ho : o ≠ .returned RT_EOK)
    (h : c.Unchanged c') : c.Ends o ok c' := by
  rw [Ends, if_neg ho]
  exact h

theorem afterPush_spec {caller : Option Tid} {item : DqItem} {timeout : Int} {r} {o : DqOutcome}
    (h : DqData c) (hsize : c.dq.size ≤ 2 ^ 15) (hr : c.dq.PushEnds item r)
    (heq : c.afterPush caller item timeout r = (c', o)) :
    DqData c' ∧ (∀ n, o ≠ .length n) ∧
      c.Ends o (c'.queue = c.queue ++ [item] ∧ c'.pushed = c.pushed ++ [item]) c' := by
  cases hr with
  | @full os err event herr =>
    obtain ⟨pc', hpc⟩ := setPc_os { c with os := os } caller .idle
    simp only [afterPush, if_neg herr, hpc] at heq
    cases heq
    exact ⟨h.congr rfl rfl rfl rfl, fun n => DqOutcome.noConfusion,
      Ends.unchanged (by simpa using herr) ⟨rfl, rfl, rfl, rfl⟩⟩
  | @waits os event =>
    obtain ⟨pc', hpc⟩ := setPc_os { c with os := os } caller (.pushing item timeout)
    simp only [afterPush, hpc] at heq
    cases heq
    exact ⟨h.congr rfl rfl rfl rfl, fun n => DqOutcome.noConfusion,
      Ends.unchanged DqOutcome.noConfusion ⟨rfl, rfl, rfl, rfl⟩⟩
  | @pushed os event hroom =>
    obtain ⟨pc', hpc⟩ := setPc_os { c with os := os, dq := c.dq.stored item } caller .idle
    simp only [afterPush, if_true, hpc] at heq
    cases heq
    refine ⟨h.push hsize hroom, fun n => DqOutcome.noConfusion, ?_⟩
    rw [Ends, if_pos rfl]
    exact ⟨rfl, rfl⟩

theorem afterPop_spec {caller : Option Tid} {timeout : Int} {r} {o : DqOutcome} (h : DqData c)
    (hsize : c.dq.size ≤ 2 ^ 15) (hr : c.dq.PopEnds r)
    (heq : c.afterPop caller timeout r = (c', o)) :
    DqData c' ∧ (∀ n, o ≠ .length n) ∧
      c.Ends o (∃ item, c.queue = item :: c'.queue ∧ c'.popped = c.popped ++ [item]) c' := by
  cases hr with
  | @empty os err event herr =>
    obtain ⟨pc', hpc⟩ := setPc_os { c with os := os } caller .idle
    simp only [afterPop, hpc] at heq
    cases heq
    exact ⟨h.congr rfl rfl rfl rfl, fun n => DqOutcome.noConfusion,
      Ends.unchanged (by simpa using herr) ⟨rfl, rfl, rfl, rfl⟩⟩
  | @waits os event =>
    obtain ⟨pc', hpc⟩ := setPc_os { c with os := os } caller (.popping timeout)
    simp only [afterPop, hpc] at heq
    cases heq
    exact ⟨h.congr rfl rfl rfl rfl, fun n => DqOutcome.noConfusion,
      Ends.unchanged DqOutcome.noConfusion ⟨rfl, rfl, rfl, rfl⟩⟩
  | @popped os event hsome =>
    obtain ⟨pc', hpc⟩ := setPc_os { c with os := os, dq := c.dq.taken } caller .idle
    obtain ⟨queue, hq, hdata⟩ := h.pop hsize hsome
    simp only [afterPop, hpc] at heq
    rw [hq, List.tail_cons] at heq
    cases heq
    refine ⟨hdata os pc', fun n => DqOutcome.noConfusion, ?_⟩
    rw [Ends, if_pos rfl]
    exact ⟨_, hq, rfl⟩

/-- `rt_data_queue_len` up to its critical section, or all of it. -/
theorem DqData.len {caller : Option Tid} {o : DqOutcome} (h : DqData c)
    (hsize : c.dq.size ≤ 2 ^ 15) (hs : c.next (.len caller) = some (c', o)) :
    c.Unchanged c' ∧ ∀ n, o = .length n → n = c.queue.length := by
  simp only [DqSystem.next] at hs
  split at hs
  · cases hempty : c.dq.is_empty with
    | true =>
      rw [hempty, if_pos rfl] at hs
      cases hs
      refine ⟨⟨rfl, rfl, rfl, rfl⟩, fun n hn => ?_⟩
      cases hn
      exact (h.empty.mp hempty).symm
    | false =>
      rw [hempty, if_neg Bool.false_ne_true] at hs
      cases caller with
      | some t =>
        cases hs
        exact ⟨⟨rfl, rfl, rfl, rfl⟩, fun n hn => DqOutcome.noConfusion hn⟩
      | none =>
        cases hs
        refine ⟨⟨rfl, rfl, rfl, rfl⟩, fun n hn => ?_⟩
        cases hn
        exact h.measured hsize hempty
  · cases hs

theorem DqData.lenLocked {t : Tid} {o : DqOutcome} (h : DqData c) (hl : c.Sound (.lenLocked t))
    (hs : c.next (.lenLocked t) = some (c', o)) :
    c.Unchanged c' ∧ ∀ n, o = .length n → n = c.queue.length := by
  rw [DqSystem.next] at hs
  split at hs
  · cases hs
    refine ⟨⟨rfl, rfl, rfl, rfl⟩, fun n hn => ?_⟩
    cases hn
    exact h.measured hl.1 hl.2
  · cases hs

theorem peek_unchanged {caller : Option Tid} {o : DqOutcome}
    (hs : c.next (.peek caller) = some (c', o)) : c.Unchanged c' ∧ ∀ n, o ≠ .length n := by
  simp only [DqSystem.next] at hs
  split at hs
  · split at hs
    · cases hs
      exact ⟨⟨rfl, rfl, rfl, rfl⟩, fun n => DqOutcome.noConfusion⟩
    · cases caller with
      | some t =>
        cases hs
        exact ⟨⟨rfl, rfl, rfl, rfl⟩, fun n => DqOutcome.noConfusion⟩
      | none =>
        cases hs
        exact ⟨⟨rfl, rfl, rfl, rfl⟩, fun n => DqOutcome.noConfusion⟩
  · cases hs

theorem peekLocked_unchanged {t : Tid} {o : DqOutcome}
    (hs : c.next (.peekLocked t) = some (c', o)) : c.Unchanged c' ∧ ∀ n, o ≠ .length n := by
  rw [DqSystem.next] at hs
  split at hs
  · cases hs
    exact ⟨⟨rfl, rfl, rfl, rfl⟩, fun n => DqOutcome.noConfusion⟩
  · cases hs

theorem Sound.size_le {l : DqStep} (h : c.Sound l) : c.dq.size ≤ 2 ^ 15 := by
  cases l with
  | lenLocked t => exact h.1
  | _ => exact h

/-- A step that refines by `ok` alone. -/
theorem refines_of_ends {l : DqStep} {o : DqOutcome} (hs : c.next l = some (c', o))
    {ok : Prop} (h : c.Ends o ok c')
    (hok : ok → c.Accepted c' l) : c.Refines l c' := by
  have hout : c.outcome l = some o := by rw [outcome, hs]; rfl
  rw [Ends] at h
  rw [Refines, hout]
  by_cases ho : o = .returned RT_EOK
  · rw [if_pos ho] at h
    rw [if_pos (by rw [ho])]
    exact hok h
  · rw [if_neg ho] at h
    rw [if_neg (by simpa using ho)]
    exact h

theorem refines_of_unchanged {l : DqStep} (hu : c.Unchanged c')
    (hl : c.Unchanged c' → c.Accepted c' l) : c.Refines l c' := by
  rw [Refines]
  split
  · exact hl hu
  · exact hu

/-- One step: what holds of the queue goes on to hold, a length that is returned is that of the
queue, and only pushes and pops that return `RT_EOK` change the queue. -/
theorem DqData.next {l : DqStep} {o : DqOutcome} (h : DqData c) (hl : c.Sound l)
    (hs : c.next l = some (c', o)) :
    DqData c' ∧ (∀ n, o = .length n → n = c.queue.length) ∧ c.Refines l c' := by
  have hsize := hl.size_le
  cases l with
  | push caller item timeout =>
    have hnext := hs
    rw [DqSystem.next] at hs
    split at hs
    · obtain ⟨r, hr, heq⟩ := Option.map_eq_some_iff.mp hs
      obtain ⟨hdata, hlen, hends⟩ := afterPush_spec h hsize (DataQueue.push_ends hr) heq
      refine ⟨hdata, fun n hn => absurd hn (hlen n), refines_of_ends hnext hends id⟩
    · cases hs
  | pushResumed t =>
    have hnext := hs
    cases hpc : c.pc t with
    | pushing item timeout =>
      simp only [DqSystem.next, hpc] at hs
      split at hs
      · obtain ⟨r, hr, heq⟩ := Option.map_eq_some_iff.mp hs
        obtain ⟨hdata, hlen, hends⟩ :=
          afterPush_spec h hsize (DataQueue.pushResumed_ends hr) heq
        refine ⟨hdata, fun n hn => absurd hn (hlen n),
          refines_of_ends hnext hends fun hok => ⟨item, timeout, hpc, hok⟩⟩
      · cases hs
    | _ => simp [DqSystem.next, hpc] at hs
  | pop caller timeout =>
    have hnext := hs
    rw [DqSystem.next] at hs
    split at hs
    · obtain ⟨r, hr, heq⟩ := Option.map_eq_some_iff.mp hs
      obtain ⟨hdata, hlen, hends⟩ := afterPop_spec h hsize (DataQueue.pop_ends hr) heq
      refine ⟨hdata, fun n hn => absurd hn (hlen n), refines_of_ends hnext hends id⟩
    · cases hs
  | popResumed t =>
    have hnext := hs
    cases hpc : c.pc t with
    | popping timeout =>
      simp only [DqSystem.next, hpc] at hs
      split at hs
      · obtain ⟨r, hr, heq⟩ := Option.map_eq_some_iff.mp hs
        obtain ⟨hdata, hlen, hends⟩ :=
          afterPop_spec h hsize (DataQueue.popResumed_ends hr) heq
        refine ⟨hdata, fun n hn => absurd hn (hlen n),
          refines_of_ends hnext hends id⟩
      · cases hs
    | _ => simp [DqSystem.next, hpc] at hs
  | len caller =>
    obtain ⟨hu, hlen⟩ := h.len hsize hs
    exact ⟨h.congr hu.1 hu.2.1 hu.2.2.1 hu.2.2.2, hlen, refines_of_unchanged hu id⟩
  | lenLocked t =>
    obtain ⟨hu, hlen⟩ := h.lenLocked hl hs
    exact ⟨h.congr hu.1 hu.2.1 hu.2.2.1 hu.2.2.2, hlen, refines_of_unchanged hu id⟩
  | peek caller =>
    obtain ⟨hu, hlen⟩ := peek_unchanged hs
    exact ⟨h.congr hu.1 hu.2.1 hu.2.2.1 hu.2.2.2, fun n hn => absurd hn (hlen n),
      refines_of_unchanged hu id⟩
  | peekLocked t =>
    obtain ⟨hu, hlen⟩ := peekLocked_unchanged hs
    exact ⟨h.congr hu.1 hu.2.1 hu.2.2.1 hu.2.2.2, fun n hn => absurd hn (hlen n),
      refines_of_unchanged hu id⟩
  | timeout t =>
    rw [DqSystem.next] at hs
    split at hs
    · obtain ⟨os, -, heq⟩ := Option.map_eq_some_iff.mp hs
      cases heq
      exact ⟨h.congr rfl rfl rfl rfl, fun n hn => DqOutcome.noConfusion hn,
        refines_of_unchanged ⟨rfl, rfl, rfl, rfl⟩ id⟩
    · cases hs
  | schedule =>
    obtain ⟨os, -, heq⟩ := Option.map_eq_some_iff.mp hs
    cases heq
    exact ⟨h.congr rfl rfl rfl rfl, fun n hn => DqOutcome.noConfusion hn,
      refines_of_unchanged ⟨rfl, rfl, rfl, rfl⟩ id⟩
  | other os =>
    cases hs
    exact ⟨h.congr rfl rfl rfl rfl, fun n hn => DqOutcome.noConfusion hn,
      refines_of_unchanged ⟨rfl, rfl, rfl, rfl⟩ id⟩

theorem reachable_dqData (hr : (dqMachine.restrict Sound).Reachable c) : DqData c := by
  apply hr.invariant
  · exact fun c h => Fresh.dqData h
  · rintro c l c' - h ⟨hl, hs⟩
    obtain ⟨⟨c1, o⟩, hnext, rfl⟩ := Option.map_eq_some_iff.mp hs
    exact (h.next hl hnext).1

end DqSystem

open DqSystem

theorem dataQueue_refines {c : DqSystem} (hr : (dqMachine.restrict Sound).Reachable c) :
    DqContract c := by
  have h := reachable_dqData hr
  refine ⟨h.in_order, h.flags, h.empty, h.full, fun l n hl hout => ?_, fun l c' hl hs => ?_⟩
  · obtain ⟨⟨c1, o⟩, hnext, ho⟩ := Option.map_eq_some_iff.mp hout
    exact (h.next hl hnext).2.1 n ho
  · obtain ⟨⟨c1, o⟩, hnext, rfl⟩ := Option.map_eq_some_iff.mp hs
    exact (h.next hl hnext).2.2

/-! ### Runs -/

/-- An empty data queue, used by nobody. -/
def emptyDataQueue (os : Rtos) (size lwm : Nat) : DqSystem :=
  { os := os
    dq := DataQueue.rt_data_queue_init size lwm true (fun _ => ⟨0, 0⟩) 0 1
    pc := fun _ => .idle, queue := [], pushed := [], popped := [] }

theorem emptyDataQueue_fresh {os : Rtos} {size lwm : Nat} (h0 : 0 < size) (hlt : size < 2 ^ 16) :
    (emptyDataQueue os size lwm).Fresh :=
  ⟨h0, hlt, ⟨_, _, _, _, _, rfl⟩, fun _ => rfl, rfl, rfl, rfl⟩

/-- The steps that the code expects. -/
def dqStepSound (c : DqSystem) (l : DqStep) : Option DqSystem :=
  if c.Sound l then c.step l else none

theorem dqStepSound_step {c c' : DqSystem} {l : DqStep} (h : dqStepSound c l = some c') :
    (dqMachine.restrict Sound).step c l c' := by
  rw [dqStepSound] at h
  split at h
  · next hl => exact ⟨hl, h⟩
  · cases h

/-- Thread 1 waits for an item, thread 2 too but not for long, and a handler pushes two. -/
def waitAndPop : List DqStep :=
  [.pop (some 1) (-1), .schedule, .pop (some 2) 10, .schedule, .timeout 2, .push none ⟨7, 1⟩ 0,
    .push none ⟨8, 1⟩ 0, .schedule, .popResumed 1, .len (some 1), .lenLocked 1]

theorem dataQueue_refines_run : ∃ os, startedThreads = some os ∧
    ∃ c, Machine.runs dqStepSound (emptyDataQueue os 2 1) waitAndPop = some c ∧
      c.popped = [⟨7, 1⟩] ∧ DqContract c := by
  have hrun : ∃ os, startedThreads = some os ∧
      ∃ c, Machine.runs dqStepSound (emptyDataQueue os 2 1) waitAndPop = some c ∧
        c.popped = [⟨7, 1⟩] := by
    decide +kernel
  obtain ⟨os, hos, c, hc, hpopped⟩ := hrun
  have hfresh : (dqMachine.restrict Sound).start (emptyDataQueue os 2 1) :=
    emptyDataQueue_fresh (by decide) (by decide)
  exact ⟨os, hos, c, hc, hpopped,
    dataQueue_refines ((Machine.Reachable.start hfresh).runs (fun _ _ _ => dqStepSound_step) hc)⟩

/-- Thread 1 pushes an item and looks at the flag for its length; a handler takes the item before
interrupts are disabled. -/
def lenOvertaken : List DqStep :=
  [.push (some 1) ⟨7, 1⟩ 0, .len (some 1), .pop none 0]

/-- A queue of more than `2 ^ 15` items: pushes fill the indices before the array. -/
theorem oversize_pushes {os : Rtos} {size : Nat} (lwm n : Nat) (hsize : 2 ^ 15 < size)
    (hlt : size < 2 ^ 16) (hlist : os.suspend_thread 1 = []) (hn : n ≤ 2 ^ 15) :
    ∃ c, dqMachine.Reachable c ∧ c.os = os ∧ c.dq.size = size ∧ c.dq.get_index = 0 ∧
      c.dq.suspended_pop_list = 1 ∧ c.dq.put_index = n % 2 ^ 15 ∧ c.queue.length = n ∧
      c.dq.is_full = decide (n = 2 ^ 15) := by
  induction n with
  | zero =>
    have hfresh : dqMachine.start (emptyDataQueue os size lwm) :=
      emptyDataQueue_fresh (by omega) hlt
    exact ⟨_, Machine.Reachable.start hfresh, rfl, rfl, rfl, rfl, rfl, rfl, rfl⟩
  | succ n ih =>
    obtain ⟨c, hr, rfl, rfl, hget, hpop, hput, hlen, hfull⟩ := ih (by omega)
    have hroom : c.dq.is_full = false := by
      rw [hfull]
      exact decide_eq_false (by omega)
    have hnext : c.dq.nextIndex c.dq.put_index = (n + 1) % 2 ^ 15 := by
      rw [DataQueue.nextIndex, hput, if_neg (by omega)]
      omega
    have hstep : c.step (.push none ⟨7, 1⟩ 0) = some { c with
        dq := c.dq.stored ⟨7, 1⟩, queue := c.queue ++ [⟨7, 1⟩], pushed := c.pushed ++ [⟨7, 1⟩] } := by
      have hl : c.os.suspend_thread (c.dq.stored ⟨7, 1⟩).suspended_pop_list = [] := by
        show c.os.suspend_thread c.dq.suspended_pop_list = []
        rw [hpop, hlist]
      simp only [step, next, MayCall, if_true, DataQueue.rt_data_queue_push, hroom,
        Bool.false_eq_true, if_false, DataQueue.put, hl, ne_eq, not_true_eq_false]
      rfl
    refine ⟨_, hr.next hstep, rfl, rfl, hget, hpop, hnext, ?_, ?_⟩
    · simp [hlen]
    · show (if c.dq.nextIndex c.dq.put_index = c.dq.get_index then true else c.dq.is_full) = _
      rw [hnext, hget, hroom]
      by_cases hlast : n + 1 = 2 ^ 15
      · rw [hlast]
        rfl
      · rw [if_neg (by omega), decide_eq_false hlast]

/-- A queue of 40000 items is full with 32768 of them, and a length of 2 is returned for an empty
queue. -/
theorem dataQueue_diverges :
    (∃ c, dqMachine.Reachable c ∧ c.dq.size = 40000 ∧ c.dq.is_full = true ∧
      c.queue.length = 32768) ∧
    ∃ c, dqMachine.Reachable c ∧ c.dq.size = 2 ∧ c.queue = [] ∧
      c.outcome (.lenLocked 1) = some (.length 2) := by
  have hrun : ∃ os, startedThreads = some os ∧ os.suspend_thread 1 = [] ∧
      ∃ c, Machine.runs DqSystem.step (emptyDataQueue os 2 1) lenOvertaken = some c ∧
        c.dq.size = 2 ∧ c.queue = [] ∧ c.outcome (.lenLocked 1) = some (.length 2) := by
    decide +kernel
  obtain ⟨os, -, hlist, c, hc, hsize, hq, hlen⟩ := hrun
  have hfresh : dqMachine.start (emptyDataQueue os 2 1) :=
    emptyDataQueue_fresh (by decide) (by decide)
  obtain ⟨c', hr, -, hsize', -, -, -, hlen', hfull⟩ :=
    oversize_pushes 1 (2 ^ 15) (show 2 ^ 15 < 40000 by decide) (by decide) hlist le_rfl
  exact ⟨⟨c', hr, hsize', hfull, hlen'⟩,
    c, (Machine.Reachable.start hfresh).runs (fun _ _ _ hs => hs) hc, hsize, hq, hlen⟩

end Ab32Vg1.Drivers
