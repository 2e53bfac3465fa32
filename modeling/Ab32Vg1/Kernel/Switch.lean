import Ab32Vg1.Kernel.SchedulerRun

/-! The deferred context switch of `context_gcc.S`: `rt_schedule` records the threads of a switch,
and `low_prio_irq` carries it out.  Each thread runs on its own stack, so the stack that `sp` is in
tells which thread executes. -/

namespace Ab32Vg1.Kernel

open ProofKit Rtos

/-- An address in the stack of a thread. -/
structure StackAddr where
  thread : Tid
  addr : BitVec 32
  deriving DecidableEq, Repr

structure Cpu where
  os : Rtos
  sp : StackAddr
  /-- Bit 0 of `PICCON`: interrupts are enabled. -/
  piccon : Bool
  /-- `low_prio_irq` has called `cpu_irq_comm_hook`. -/
  serving : Bool
  rt_cur_thread_sp : StackAddr
  /-- `thread->sp` -/
  slot : Tid → StackAddr
  /-- The frame saved last on the stack of each thread; the code does not keep it. -/
  frame : Tid → StackAddr

namespace Cpu

/-- The thread whose context executes. -/
def executing (c : Cpu) : Tid := c.sp.thread

def save_context (c : Cpu) : Cpu :=
  let sp := { c.sp with addr := c.sp.addr - 124 }
  { c with
    sp := sp
    rt_cur_thread_sp := sp
    frame := Function.update c.frame c.sp.thread sp }

/-- The interrupt bit comes back with the frame, which was saved while interrupts were enabled. -/
def restore_context (c : Cpu) : Cpu :=
  { c with
    sp := { c.rt_cur_thread_sp with addr := c.rt_cur_thread_sp.addr + 124 }
    piccon := true
    serving := false }

def rt_switch_to_thread (c : Cpu) : Option Cpu := do
  let from_thread ← c.os.port.rt_interrupt_from_thread
  let slot := Function.update c.slot from_thread c.rt_cur_thread_sp
  let to_thread ← c.os.port.rt_interrupt_to_thread
  return { c with slot := slot, rt_cur_thread_sp := slot to_thread }

/-- `low_prio_irq` up to the call of `cpu_irq_comm_hook`. -/
def low_prio_irq (c : Cpu) : Cpu :=
  let c := c.save_context
  if c.os.port.rt_interrupt_nest ≠ 0 then c.restore_context else { c with serving := true }

/-- `low_prio_irq` after the call of `cpu_irq_comm_hook`. -/
def low_prio_irq_exit (c : Cpu) : Option Cpu :=
  if c.os.port.rt_thread_switch_interrupt_flag then do
    let c ← c.rt_switch_to_thread
    let port := { c.os.port with rt_thread_switch_interrupt_flag := false }
    return { c with os := { c.os with port := port } }.restore_context
  else some c.restore_context

def rt_soft_isr (c : Cpu) : Cpu :=
  { c with os := { c.os with port := { c.os.port with soft_pending := false } } }

end Cpu

/-! ### The machine -/

/-- A step of the processor.  `kernel` is any part of a kernel operation that neither calls
`rt_schedule` nor enters or leaves an interrupt. -/
inductive CpuStep where
  | move (addr : BitVec 32)
  | kernel (f : Rtos → Option Rtos)
  | schedule
  | interrupt_disable
  | interrupt_enable
  | irq
  | soft_isr
  | interrupt_enter
  | interrupt_leave
  | irq_exit

namespace Cpu

/-- The software interrupt is pending and enabled, and is taken before anything else. -/
def Due (c : Cpu) : Prop :=
  c.serving = false ∧ c.piccon = true ∧ c.os.port.soft_pending = true

instance (c : Cpu) : Decidable c.Due := inferInstanceAs (Decidable (_ ∧ _))

/-- When a step is possible.  A handler calls `rt_schedule` between `rt_interrupt_enter` and
`rt_interrupt_leave`, and handlers are not nested. -/
def Can (c : Cpu) : CpuStep → Prop
  | .move _ | .kernel _ | .interrupt_disable | .interrupt_enable => ¬c.Due
  | .schedule => ¬c.Due ∧ (c.serving = true → c.os.port.rt_interrupt_nest ≠ 0)
  | .irq => c.serving = false ∧ c.piccon = true
  | .soft_isr => c.serving = true
  | .interrupt_enter => c.serving = true ∧ c.os.port.rt_interrupt_nest = 0
  | .interrupt_leave => c.serving = true ∧ c.os.port.rt_interrupt_nest ≠ 0
  | .irq_exit => c.serving = true ∧ c.os.port.rt_interrupt_nest = 0

instance (c : Cpu) (l : CpuStep) : Decidable (c.Can l) :=
  match l with
  | .move _ | .kernel _ | .interrupt_disable | .interrupt_enable =>
    inferInstanceAs (Decidable (¬_))
  | .schedule => inferInstanceAs (Decidable (_ ∧ (_ → _)))
  | .soft_isr => inferInstanceAs (Decidable (_ = _))
  | .irq | .interrupt_enter | .interrupt_leave | .irq_exit => inferInstanceAs (Decidable (_ ∧ _))

/-- The kernel after an operation that leaves the current thread and the port alone. -/
def kernel (c : Cpu) (f : Rtos → Option Rtos) : Option Cpu := do
  let os ← f c.os
  if os.port = c.os.port ∧ os.rt_current_thread = c.os.rt_current_thread then
    return { c with os := os }
  else none

def step (c : Cpu) : CpuStep → Option Cpu
  | .move addr => some { c with sp := { c.sp with addr := addr } }
  | .kernel f => c.kernel f
  | .schedule => c.os.rt_schedule.map fun os => { c with os := os }
  | .interrupt_disable => some { c with piccon := false }
  | .interrupt_enable => some { c with piccon := true }
  | .irq => some c.low_prio_irq
  | .soft_isr => some c.rt_soft_isr
  | .interrupt_enter => some { c with os := c.os.rt_interrupt_enter }
  | .interrupt_leave => some { c with os := c.os.rt_interrupt_leave }
  | .irq_exit => c.low_prio_irq_exit

/-- The first thread runs: the first switch is done, and each other thread has the frame that
`rt_hw_stack_init` built. -/
structure FirstThreadRuns (c : Cpu) : Prop where
  current : c.os.rt_current_thread = some c.executing
  flag : c.os.port.rt_thread_switch_interrupt_flag = false
  nest : c.os.port.rt_interrupt_nest = 0
  serving : c.serving = false
  frame : ∀ t, (c.frame t).thread = t
  slot : ∀ t, t ≠ c.executing → c.slot t = c.frame t

end Cpu

def switchMachine : Machine Cpu CpuStep where
  start := Cpu.FirstThreadRuns
  step c l c' := c.Can l ∧ c.step l = some c'

/-- A switch stores the frame of the executing thread in its own slot and loads the slot of the
current thread; the slot of a thread that does not execute holds the frame saved last for it. -/
structure DeferredSwitch (c : Cpu) : Prop where
  switch : c.Can .irq_exit → c.os.port.rt_thread_switch_interrupt_flag = true →
    ∃ c' cur, c.low_prio_irq_exit = some c' ∧
      c'.slot = Function.update c.slot c.executing (c.frame c.executing) ∧
      c.os.rt_current_thread = some cur ∧ c'.rt_cur_thread_sp = c'.slot cur
  slot : ∀ t, t ≠ c.executing → c.slot t = c.frame t

/-- `rt_schedule` leaves the current thread. -/
def Rtos.StaysCurrent (s : Rtos) : Prop :=
  s.rt_scheduler_lock_nest ≠ 0 ∨ s.rt_thread_ready_priority_group = 0 ∨
    ∃ highest ∈ s.get_highest_priority_thread, ∃ cur ∈ s.rt_current_thread,
      highest.1 = cur ∨ (s.threads cur).stat = .RUNNING ∧ keepsRunning (s.threads cur) highest.2

instance (s : Rtos) : Decidable s.StaysCurrent := inferInstanceAs (Decidable (_ ∨ _ ∨ _))

/-- A thread calls `rt_schedule` while it is the current thread, or the call leaves the current
thread.  Handlers may always call it. -/
def SchedulesOnce (c : Cpu) : CpuStep → Prop
  | .schedule =>
    c.serving = true ∨ c.os.rt_current_thread = some c.executing ∨ c.os.StaysCurrent
  | _ => True

instance (c : Cpu) (l : CpuStep) : Decidable (SchedulesOnce c l) :=
  match l with
  | .schedule => inferInstanceAs (Decidable (_ ∨ _ ∨ _))
  | .move _ | .kernel _ | .interrupt_disable | .interrupt_enable | .irq | .soft_isr
  | .interrupt_enter | .interrupt_leave | .irq_exit => inferInstanceAs (Decidable True)

/-! ### What `rt_schedule` asks for -/

section

variable {s s' : Rtos} {t : Tid}

theorem switchTo_port {from_thread to_thread : Tid} {p : Nat} {need : Bool} :
    (s.switchTo from_thread to_thread p need).port =
      if s.port.rt_interrupt_nest = 0 then s.port.rt_hw_context_switch from_thread to_thread
      else s.port.rt_hw_context_switch_interrupt from_thread to_thread := by
  unfold switchTo contextSwitch
  cases need <;> simp

/-- `rt_schedule` leaves the current thread and the port, or replaces the current thread and asks
for the switch. -/
theorem rt_schedule_port (hs : s.rt_schedule = some s') :
    (s'.port = s.port ∧ s'.rt_current_thread = s.rt_current_thread) ∨
      ∃ cur next, s.rt_current_thread = some cur ∧ s'.rt_current_thread = some next ∧
        ¬s.StaysCurrent ∧
        s'.port = if s.port.rt_interrupt_nest = 0 then s.port.rt_hw_context_switch cur next
          else s.port.rt_hw_context_switch_interrupt cur next := by
  rcases rt_schedule_cases hs with ⟨rfl, -⟩ | ⟨next, p, cur, hlock, hgroup, hnext, hcur, hcase⟩
  · exact Or.inl ⟨rfl, rfl⟩
  have hstays : next ≠ cur → ¬((s.threads cur).stat = .RUNNING ∧ keepsRunning (s.threads cur) p) →
      ¬s.StaysCurrent := by
    rintro hne hkeep (hl | hg | ⟨highest, hhighest, cur', hcur', hor⟩)
    · exact hl hlock
    · exact hgroup hg
    · rw [hnext] at hhighest
      rw [hcur] at hcur'
      cases hhighest
      cases hcur'
      exact hor.elim hne hkeep
  rcases hcase with ⟨-, -, rfl⟩ | ⟨-, hkeep, rfl⟩ | ⟨hrun, rfl⟩
  · rw [finishSchedule, if_neg (by simp)]
    exact Or.inl ⟨rfl, rfl⟩
  · by_cases hne : next = cur
    · subst hne
      rw [finishSchedule, if_neg (by simp)]
      exact Or.inl ⟨rfl, rfl⟩
    · rw [finishSchedule, if_pos hne]
      exact Or.inr ⟨cur, next, hcur, switchTo_current, hstays hne fun h => hkeep h.2, switchTo_port⟩
  · by_cases hne : next = cur
    · subst hne
      rw [finishSchedule, if_neg (by simp)]
      exact Or.inl ⟨rfl, rfl⟩
    · rw [finishSchedule, if_pos hne]
      exact Or.inr ⟨cur, next, hcur, switchTo_current, hstays hne fun h => hrun h.1, switchTo_port⟩

end

/-! ### The invariant of the port -/

namespace Cpu

/-- Without a switch pending the current thread executes; otherwise the port holds the executing
thread and the current one. -/
structure PortInv (c : Cpu) : Prop where
  nest : c.serving = false → c.os.port.rt_interrupt_nest = 0
  frame : ∀ t, (c.frame t).thread = t
  slot : ∀ t, t ≠ c.executing → c.slot t = c.frame t
  saved : c.serving = true → c.rt_cur_thread_sp = c.frame c.executing
  settled : c.os.port.rt_thread_switch_interrupt_flag = false →
    c.os.rt_current_thread = some c.executing
  pending : c.os.port.rt_thread_switch_interrupt_flag = true →
    c.os.port.rt_interrupt_from_thread = some c.executing ∧
      ∃ cur, c.os.rt_current_thread = some cur ∧ c.os.port.rt_interrupt_to_thread = some cur

variable {c c' : Cpu}

theorem FirstThreadRuns.portInv (h : FirstThreadRuns c) : PortInv c where
  nest _ := h.nest
  frame := h.frame
  slot := h.slot
  saved hs := by
    rw [h.serving] at hs
    cases hs
  settled _ := h.current
  pending hf := by
    rw [h.flag] at hf
    cases hf

/-- The switch at the end of an interrupt. -/
theorem PortInv.exit_switch (h : PortInv c) (hserv : c.serving = true)
    (hflag : c.os.port.rt_thread_switch_interrupt_flag = true) :
    ∃ cur, c.os.rt_current_thread = some cur ∧ c.low_prio_irq_exit =
      some { c with
        os := { c.os with port := { c.os.port with rt_thread_switch_interrupt_flag := false } }
        slot := Function.update c.slot c.executing (c.frame c.executing)
        rt_cur_thread_sp := c.frame cur
        sp := { c.frame cur with addr := (c.frame cur).addr + 124 }
        piccon := true
        serving := false } := by
  obtain ⟨hfrom, cur, hcur, hto⟩ := h.pending hflag
  have hslot : Function.update c.slot c.executing (c.frame c.executing) cur = c.frame cur := by
    by_cases hce : cur = c.executing
    · rw [hce, Function.update_self]
    · rw [Function.update_of_ne hce, h.slot cur hce]
  refine ⟨cur, hcur, ?_⟩
  unfold low_prio_irq_exit rt_switch_to_thread
  rw [if_pos hflag, hfrom, hto, h.saved hserv]
  simp only [Option.bind_eq_bind, Option.bind_some, Option.pure_def, restore_context, hslot]

theorem PortInv.deferredSwitch (h : PortInv c) : DeferredSwitch c where
  switch hcan hflag := by
    obtain ⟨cur, hcur, hexit⟩ := h.exit_switch hcan.1 hflag
    refine ⟨_, cur, hexit, rfl, hcur, ?_⟩
    by_cases hce : cur = c.executing
    · simp [hce]
    · simp [hce, h.slot cur hce]
  slot := h.slot

theorem PortInv.exit (h : PortInv c) (hserv : c.serving = true)
    (hnest : c.os.port.rt_interrupt_nest = 0) (hs : c.low_prio_irq_exit = some c') :
    PortInv c' := by
  by_cases hflag : c.os.port.rt_thread_switch_interrupt_flag = true
  · obtain ⟨cur, hcur, hexit⟩ := h.exit_switch hserv hflag
    obtain rfl := Option.some.inj (hexit.symm.trans hs)
    have hrun : (c.frame cur).thread = cur := h.frame cur
    refine ⟨fun _ => hnest, h.frame, fun t ht => ?_, fun h0 => absurd h0 (by simp), fun _ => ?_,
      fun h0 => absurd h0 (by simp)⟩
    · -- the thread that leaves the processor gets its frame
      by_cases hte : t = c.executing
      · subst hte
        exact Function.update_self ..
      · exact (Function.update_of_ne hte ..).trans (h.slot t hte)
    · show c.os.rt_current_thread = some (c.frame cur).thread
      rw [hcur, hrun]
  · unfold low_prio_irq_exit at hs
    rw [if_neg hflag] at hs
    obtain rfl := Option.some.inj hs
    have hexec : (c.restore_context).executing = c.executing := by
      show c.rt_cur_thread_sp.thread = _
      rw [h.saved hserv, h.frame]
    refine ⟨fun _ => hnest, h.frame, fun t ht => h.slot t (by rwa [hexec] at ht),
      fun h0 => absurd h0 (by simp [restore_context]), fun hf => ?_, fun hf => absurd hf hflag⟩
    rw [hexec]
    exact h.settled hf

theorem PortInv.irq (h : PortInv c) (hserv : c.serving = false) : PortInv c.low_prio_irq := by
  unfold low_prio_irq
  have hnest : c.save_context.os.port.rt_interrupt_nest = 0 := h.nest hserv
  dsimp only
  rw [if_neg (by simp [hnest])]
  have hframe : ∀ t, t ≠ c.executing → c.save_context.frame t = c.frame t := fun t ht =>
    Function.update_of_ne ht ..
  refine ⟨fun _ => hnest, fun t => ?_, fun t ht => ?_, fun _ => ?_, h.settled, h.pending⟩
  · by_cases hte : t = c.executing
    · subst hte
      show (Function.update c.frame c.sp.thread _ c.sp.thread).thread = c.sp.thread
      rw [Function.update_self]
    · exact (congrArg StackAddr.thread (hframe t hte)).trans (h.frame t)
  · exact (h.slot t ht).trans (hframe t ht).symm
  · exact (Function.update_self c.sp.thread _ c.frame).symm

/-- A request for a switch by a handler, or by the current thread. -/
theorem PortInv.schedule {os : Rtos} (h : PortInv c) (hs : c.os.rt_schedule = some os)
    (hnest : c.serving = true → c.os.port.rt_interrupt_nest ≠ 0)
    (honce : SchedulesOnce c .schedule) : PortInv { c with os := os } := by
  rcases rt_schedule_port hs with ⟨hport, hcur⟩ | ⟨cur, next, hcur, hnext, hstays, hport⟩
  · refine ⟨?_, h.frame, h.slot, h.saved, ?_, ?_⟩
    · rw [hport]
      exact h.nest
    · rw [hport, hcur]
      exact h.settled
    · rw [hport, hcur]
      exact h.pending
  · by_cases hserv : c.serving = true
    · -- a handler keeps the thread to store
      have hn := hnest hserv
      rw [if_neg hn] at hport
      refine ⟨fun h0 => ?_, h.frame, h.slot, h.saved, fun hf => ?_, fun _ => ⟨?_, next, hnext, ?_⟩⟩
      · rw [hserv] at h0
        cases h0
      · rw [hport] at hf
        cases hf
      · rw [hport]
        by_cases hflag : c.os.port.rt_thread_switch_interrupt_flag = true
        · exact (if_pos hflag).trans (h.pending hflag).1
        · refine (if_neg hflag).trans ?_
          rw [← hcur]
          exact h.settled (Bool.eq_false_iff.mpr hflag)
      · rw [hport]
        rfl
    · -- a thread is itself the thread to store
      have hserv : c.serving = false := Bool.eq_false_iff.mpr hserv
      have hcur' : c.os.rt_current_thread = some c.executing := by
        rcases honce with h0 | h0 | h0
        · rw [hserv] at h0
          cases h0
        · exact h0
        · exact absurd h0 hstays
      obtain rfl := Option.some.inj (hcur.symm.trans hcur')
      rw [if_pos (h.nest hserv)] at hport
      refine ⟨fun _ => ?_, h.frame, h.slot, h.saved, fun hf => ?_, fun _ => ⟨?_, next, hnext, ?_⟩⟩
      · rw [hport]
        exact h.nest hserv
      · rw [hport] at hf
        cases hf
      · rw [hport]
        rfl
      · rw [hport]
        rfl

/-- Each step of the processor keeps the port right, if threads schedule once before a switch. -/
theorem PortInv.step {l : CpuStep} (h : PortInv c) (honce : SchedulesOnce c l) (hcan : c.Can l)
    (hs : c.step l = some c') : PortInv c' := by
  cases l with
  | move addr =>
    obtain rfl := Option.some.inj hs
    exact ⟨h.nest, h.frame, h.slot, h.saved, h.settled, h.pending⟩
  | kernel f =>
    obtain ⟨os, hf, hs⟩ := Option.bind_eq_some_iff.mp hs
    by_cases hkeep : os.port = c.os.port ∧ os.rt_current_thread = c.os.rt_current_thread
    · rw [if_pos hkeep] at hs
      obtain rfl := Option.some.inj hs
      obtain ⟨hport, hcur⟩ := hkeep
      refine ⟨?_, h.frame, h.slot, h.saved, ?_, ?_⟩
      · rw [hport]
        exact h.nest
      · rw [hport, hcur]
        exact h.settled
      · rw [hport, hcur]
        exact h.pending
    · rw [if_neg hkeep] at hs
      cases hs
  | schedule =>
    obtain ⟨os, hos, rfl⟩ := Option.map_eq_some_iff.mp hs
    exact h.schedule hos hcan.2 honce
  | interrupt_disable =>
    obtain rfl := Option.some.inj hs
    exact ⟨h.nest, h.frame, h.slot, h.saved, h.settled, h.pending⟩
  | interrupt_enable =>
    obtain rfl := Option.some.inj hs
    exact ⟨h.nest, h.frame, h.slot, h.saved, h.settled, h.pending⟩
  | irq =>
    obtain rfl := Option.some.inj hs
    exact h.irq hcan.1
  | soft_isr =>
    obtain rfl := Option.some.inj hs
    exact ⟨h.nest, h.frame, h.slot, h.saved, h.settled, h.pending⟩
  | interrupt_enter =>
    obtain rfl := Option.some.inj hs
    have hserv : c.serving = true := hcan.1
    refine ⟨fun h0 => ?_, h.frame, h.slot, h.saved, h.settled, h.pending⟩
    rw [show c.serving = false from h0] at hserv
    cases hserv
  | interrupt_leave =>
    obtain rfl := Option.some.inj hs
    have hserv : c.serving = true := hcan.1
    refine ⟨fun h0 => ?_, h.frame, h.slot, h.saved, h.settled, h.pending⟩
    rw [show c.serving = false from h0] at hserv
    cases hserv
  | irq_exit => exact h.exit hcan.1 hcan.2 hs

end Cpu

/-- In every run in which threads schedule once before a switch, each switch stores the executing
thread and loads the current one. -/
theorem deferred_switch {c : Cpu} (hr : (switchMachine.restrict SchedulesOnce).Reachable c) :
    DeferredSwitch c := by
  apply Cpu.PortInv.deferredSwitch
  apply hr.invariant
  · exact fun c h => h.portInv
  · intro c l c' _ h hstep
    exact h.step hstep.1 hstep.2.1 hstep.2.2

/-! ### The operations of the kernel are steps of the processor -/

/-- An operation that neither starts the scheduler nor enters or leaves an interrupt. -/
def Op.Ordinary : Op → Prop
  | .scheduler_start | .interrupt_enter | .interrupt_leave => False
  | _ => True

/-- The part of an operation before its call of `rt_schedule` leaves the current thread and the
port alone. -/
def SamePort (s s' : Rtos) : Prop :=
  s'.port = s.port ∧ s'.rt_current_thread = s.rt_current_thread

section

variable {s s' s1 : Rtos} {t : Tid}

theorem SamePort.trans (h : SamePort s s1) (h' : SamePort s1 s') : SamePort s s' :=
  ⟨h'.1.trans h.1, h'.2.trans h.2⟩

theorem rt_thread_resume_samePort {r : Int} (hs : s.rt_thread_resume t = some (s', r)) :
    SamePort s s' := by
  obtain ⟨-, hs⟩ := RT_ASSERT_bind_eq_some.mp hs
  split at hs
  · obtain ⟨rfl, -⟩ := Prod.mk.inj (Option.some.inj hs)
    exact ⟨rfl, rfl⟩
  · obtain ⟨rfl, -⟩ := Prod.mk.inj (Option.some.inj hs)
    exact ⟨insert_port .., insert_current ..⟩

theorem rt_thread_suspend_samePort {r : Int} (hs : s.rt_thread_suspend t = some (s', r)) :
    SamePort s s' := by
  obtain ⟨-, hs⟩ := RT_ASSERT_bind_eq_some.mp hs
  dsimp only at hs
  split at hs
  · obtain ⟨rfl, -⟩ := Prod.mk.inj (Option.some.inj hs)
    exact ⟨rfl, rfl⟩
  · obtain ⟨-, hs⟩ := RT_ASSERT_bind_eq_some.mp hs
    obtain ⟨rfl, -⟩ := Prod.mk.inj (Option.some.inj hs)
    exact ⟨rfl, rfl⟩

theorem rt_thread_control_priority_samePort {p : Nat}
    (hs : s.rt_thread_control_priority t p = some s') : SamePort s s' := by
  obtain ⟨-, hs⟩ := RT_ASSERT_bind_eq_some.mp hs
  dsimp only at hs
  split at hs
  · obtain rfl := Option.some.inj hs
    exact ⟨insert_port .., insert_current ..⟩
  · obtain rfl := Option.some.inj hs
    exact ⟨rfl, rfl⟩

theorem unschedule_port :
    (if (s.threads t).stat ≠ .INIT then s.rt_schedule_remove_thread t else s).port = s.port := by
  split <;> rfl

theorem rt_thread_detach_samePort (hs : s.rt_thread_detach t = some s') : SamePort s s' := by
  obtain ⟨-, hs⟩ := RT_ASSERT_bind_eq_some.mp hs
  obtain ⟨-, hs⟩ := RT_ASSERT_bind_eq_some.mp hs
  by_cases hst : (s.threads t).stat = .CLOSE
  · rw [if_pos hst] at hs
    obtain rfl := Option.some.inj hs
    exact ⟨rfl, rfl⟩
  · rw [if_neg hst] at hs
    obtain rfl := Option.some.inj hs
    exact ⟨unschedule_port, unschedule_current⟩

theorem rt_thread_delete_samePort (hs : s.rt_thread_delete t = some s') : SamePort s s' := by
  obtain ⟨-, hs⟩ := RT_ASSERT_bind_eq_some.mp hs
  obtain ⟨-, hs⟩ := RT_ASSERT_bind_eq_some.mp hs
  by_cases hst : (s.threads t).stat = .CLOSE
  · rw [if_pos hst] at hs
    obtain rfl := Option.some.inj hs
    exact ⟨rfl, rfl⟩
  · rw [if_neg hst] at hs
    obtain rfl := Option.some.inj hs
    exact ⟨unschedule_port, unschedule_current⟩

theorem rt_timer_start_samePort {tick : Nat} (hs : s.rt_timer_start t tick = some s') :
    SamePort s s' := by
  obtain ⟨-, hs⟩ := RT_ASSERT_bind_eq_some.mp hs
  obtain rfl := Option.some.inj hs
  exact ⟨rfl, rfl⟩

theorem waitOn_samePort {l : Nat} {flag : IpcFlag} {time : Int}
    (hs : s.waitOn l t flag time = some s') : SamePort s s' := by
  obtain ⟨s1, h1, hs⟩ := Option.bind_eq_some_iff.mp hs
  obtain ⟨⟨s2, r⟩, h2, h1⟩ := Option.bind_eq_some_iff.mp h1
  obtain rfl := Option.some.inj h1
  have h : SamePort s s2 := rt_thread_suspend_samePort (s := s.setThread t _) h2
  split at hs
  · have hstart : SamePort (s2.insertWaiting l t flag) s' := rt_timer_start_samePort hs
    exact h.trans hstart
  · exact Option.some.inj hs ▸ h

theorem resumeAll_samePort {l n : Nat} (hs : resumeAll l n s = some s') : SamePort s s' := by
  induction n generalizing s with
  | zero =>
    unfold resumeAll at hs
    split at hs
    · exact Option.some.inj hs ▸ ⟨rfl, rfl⟩
    · cases hs
    · rename_i heq
      cases heq
  | succ n ih =>
    unfold resumeAll at hs
    split at hs
    · exact Option.some.inj hs ▸ ⟨rfl, rfl⟩
    · rename_i heq
      cases heq
    · rename_i heq
      cases heq
      obtain ⟨⟨s1, r⟩, hres, hs⟩ := Option.bind_eq_some_iff.mp hs
      have h1 : SamePort s s1 := rt_thread_resume_samePort (s := s.setThread _ _) hres
      exact h1.trans (ih hs)

end

/-- An operation is a change that keeps the port and then, for some, a call of `rt_schedule`. -/
theorem Op.run_split {s s' : Rtos} {op : Op} (hop : op.Ordinary) (hs : op.run s = some s') :
    ∃ s1, SamePort s s1 ∧ (s' = s1 ∨ s1.rt_schedule = some s') := by
  cases op with
  | thread_init t o p tick =>
    obtain ⟨-, hs⟩ := RT_ASSERT_bind_eq_some.mp hs
    obtain ⟨-, hs⟩ := RT_ASSERT_bind_eq_some.mp hs
    obtain rfl := Option.some.inj hs
    exact ⟨s.setThread t _, ⟨rfl, rfl⟩, Or.inl rfl⟩
  | startup t =>
    obtain ⟨s1, h1, hs⟩ := Option.bind_eq_some_iff.mp hs
    obtain ⟨-, h1⟩ := RT_ASSERT_bind_eq_some.mp h1
    obtain ⟨-, h1⟩ := RT_ASSERT_bind_eq_some.mp h1
    obtain ⟨⟨s2, r⟩, h2, h1⟩ := Option.bind_eq_some_iff.mp h1
    obtain rfl := Option.some.inj h1
    refine ⟨s2, rt_thread_resume_samePort (s := s.setThread t _) h2, ?_⟩
    split at hs
    · exact Or.inr hs
    · exact Or.inl (Option.some.inj hs).symm
  | suspend t =>
    obtain ⟨⟨s1, r⟩, h1, rfl⟩ := Option.map_eq_some_iff.mp hs
    exact ⟨s1, rt_thread_suspend_samePort h1, Or.inl rfl⟩
  | resume t =>
    obtain ⟨⟨s1, r⟩, h1, rfl⟩ := Option.map_eq_some_iff.mp hs
    exact ⟨s1, rt_thread_resume_samePort h1, Or.inl rfl⟩
  | change_priority t p => exact ⟨s', rt_thread_control_priority_samePort hs, Or.inl rfl⟩
  | close t =>
    obtain ⟨s1, h1, hs⟩ := Option.bind_eq_some_iff.mp hs
    refine ⟨s1, ?_, Or.inr hs⟩
    unfold rt_thread_control_close at h1
    split at h1
    · exact rt_thread_detach_samePort h1
    · exact rt_thread_delete_samePort h1
  | delete t => exact ⟨s', rt_thread_delete_samePort hs, Or.inl rfl⟩
  | detach t => exact ⟨s', rt_thread_detach_samePort hs, Or.inl rfl⟩
  | yield =>
    obtain ⟨s1, h1, hs⟩ := Option.bind_eq_some_iff.mp hs
    obtain ⟨t, -, h1⟩ := Option.bind_eq_some_iff.mp h1
    obtain rfl := Option.some.inj h1
    exact ⟨s.setThread t _, ⟨rfl, rfl⟩, Or.inr hs⟩
  | sleep tick =>
    obtain ⟨s1, h1, hs⟩ := Option.bind_eq_some_iff.mp hs
    obtain ⟨t, -, h1⟩ := Option.bind_eq_some_iff.mp h1
    obtain ⟨⟨s2, r⟩, h2, h1⟩ := Option.bind_eq_some_iff.mp h1
    exact ⟨s1, (rt_thread_suspend_samePort h2).trans (rt_timer_start_samePort h1), Or.inr hs⟩
  | timeout t =>
    obtain ⟨s1, h1, hs⟩ := Option.bind_eq_some_iff.mp hs
    obtain ⟨-, h1⟩ := RT_ASSERT_bind_eq_some.mp h1
    obtain ⟨-, h1⟩ := RT_ASSERT_bind_eq_some.mp h1
    obtain rfl := Option.some.inj h1
    refine ⟨_, ?_, Or.inr hs⟩
    exact ⟨insert_port .., insert_current ..⟩
  | schedule => exact ⟨s, ⟨rfl, rfl⟩, Or.inr hs⟩
  | enter_critical =>
    obtain rfl := Option.some.inj hs
    exact ⟨s.rt_enter_critical, ⟨rfl, rfl⟩, Or.inl rfl⟩
  | exit_critical =>
    have hs : s.rt_exit_critical = some s' := hs
    unfold rt_exit_critical at hs
    dsimp only at hs
    by_cases hnest : (s.rt_scheduler_lock_nest - 1).toInt ≤ 0
    · rw [if_pos hnest] at hs
      refine ⟨{ s with rt_scheduler_lock_nest := 0 }, ⟨rfl, rfl⟩, ?_⟩
      split at hs
      · exact Or.inr hs
      · exact Or.inl (Option.some.inj hs).symm
    · rw [if_neg hnest] at hs
      obtain rfl := Option.some.inj hs
      exact ⟨{ s with rt_scheduler_lock_nest := s.rt_scheduler_lock_nest - 1 }, ⟨rfl, rfl⟩,
        Or.inl rfl⟩
  | wait l flag time =>
    obtain ⟨t, -, hs⟩ := Option.bind_eq_some_iff.mp hs
    exact ⟨s', waitOn_samePort hs, Or.inl rfl⟩
  | wakeup l =>
    refine ⟨s', ?_, Or.inl rfl⟩
    have hs : s.rt_ipc_list_resume l = some s' := hs
    unfold rt_ipc_list_resume at hs
    split at hs
    · cases hs
    · obtain ⟨⟨s1, r⟩, h1, hs⟩ := Option.bind_eq_some_iff.mp hs
      obtain rfl := Option.some.inj hs
      exact rt_thread_resume_samePort h1
  | wakeup_all l => exact ⟨s', resumeAll_samePort hs, Or.inl rfl⟩
  | scheduler_start => exact hop.elim
  | interrupt_enter => exact hop.elim
  | interrupt_leave => exact hop.elim

/-- The processor can carry out every operation, in one or two steps. -/
theorem Op.reaches {c : Cpu} {os : Rtos} {op : Op} (hop : op.Ordinary)
    (hcan : c.Can .schedule) (hs : op.run c.os = some os) :
    switchMachine.Reaches c { c with os := os } := by
  obtain ⟨s1, hsame, hs⟩ := Op.run_split hop hs
  let c1 : Cpu := { c with os := s1 }
  have h1 : switchMachine.step c (.kernel fun _ => some s1) c1 := by
    refine ⟨hcan.1, ?_⟩
    exact if_pos (c := s1.port = c.os.port ∧ s1.rt_current_thread = c.os.rt_current_thread) hsame
  rcases hs with rfl | hs
  · exact Relation.ReflTransGen.single ⟨_, h1⟩
  · have hcan1 : c1.Can .schedule := by
      show ¬(_ ∧ _ ∧ s1.port.soft_pending = true) ∧ (_ → s1.port.rt_interrupt_nest ≠ 0)
      rw [hsame.1]
      exact hcan
    have h2 : switchMachine.step c1 .schedule { c with os := os } :=
      ⟨hcan1, by show s1.rt_schedule.map _ = _; rw [hs]; rfl⟩
    exact (Relation.ReflTransGen.single ⟨_, h1⟩).tail ⟨_, h2⟩

/-- The step that the processor takes, if it can and `allowed` permits it. -/
def Cpu.next (allowed : Cpu → CpuStep → Prop) [∀ c l, Decidable (allowed c l)] (c : Cpu)
    (l : CpuStep) : Option Cpu :=
  if allowed c l ∧ c.Can l then c.step l else none

theorem Cpu.next_step {allowed : Cpu → CpuStep → Prop} [∀ c l, Decidable (allowed c l)]
    (c : Cpu) (l : CpuStep) (c' : Cpu) (h : c.next allowed l = some c') :
    (switchMachine.restrict allowed).step c l c' := by
  unfold Cpu.next at h
  by_cases hcan : allowed c l ∧ c.Can l
  · rw [if_pos hcan] at h
    exact ⟨hcan.1, hcan.2, h⟩
  · rw [if_neg hcan] at h
    cases h

/-- Thread 2 runs; threads 1 and 0, of higher priority, are suspended. -/
def thread2Runs : Cpu where
  os :=
    { createdThreads with
      threads := fun t =>
        { createdThreads.threads t with
          stat := if t = 2 then .RUNNING else if t < 32 then .SUSPEND else .CLOSE
          number_mask := 1#32 <<< (t % 32) }
      rt_current_thread := some 2 }
  sp := ⟨2, 2000⟩
  piccon := true
  serving := false
  rt_cur_thread_sp := ⟨2, 1000⟩
  slot t := ⟨t, 1000⟩
  frame t := ⟨t, 1000⟩

theorem thread2Runs_first : thread2Runs.FirstThreadRuns where
  current := rfl
  flag := rfl
  nest := rfl
  serving := rfl
  frame _ := rfl
  slot _ _ := rfl

/-- A thread resumes another one. -/
def resume (t : Tid) : CpuStep := .kernel fun s => (s.rt_thread_resume t).map Prod.fst

/-- Thread 2 is stored and thread 1 runs after one request. -/
theorem deferred_switch_once : ∃ c, Machine.runs (Cpu.next SchedulesOnce) thread2Runs
    [resume 1, .schedule, .irq, .soft_isr, .irq_exit] = some c ∧ c.executing = 1 ∧
    DeferredSwitch c := by
  have hrun : ∃ c, Machine.runs (Cpu.next SchedulesOnce) thread2Runs
      [resume 1, .schedule, .irq, .soft_isr, .irq_exit] = some c ∧ c.executing = 1 := by
    decide +kernel
  obtain ⟨c, hc, hexec⟩ := hrun
  exact ⟨c, hc, hexec,
    deferred_switch ((Machine.Reachable.start thread2Runs_first).runs Cpu.next_step hc)⟩

/-- Thread 2 wakes thread 1 and then thread 0 while interrupts are disabled, and calls
`rt_schedule` each time. -/
def twoRequests : List CpuStep :=
  [.interrupt_disable, resume 1, .schedule, resume 0, .schedule, .interrupt_enable, .irq, .soft_isr]

/-- The frame of thread 2 goes to the slot of thread 1. -/
theorem not_deferred_switch : ∃ c, switchMachine.Reachable c ∧ ¬DeferredSwitch c := by
  have hrun : ∃ c, Machine.runs (Cpu.next fun _ _ => True) thread2Runs twoRequests = some c ∧
      c.Can .irq_exit ∧ c.os.port.rt_thread_switch_interrupt_flag = true ∧ c.executing = 2 ∧
      (c.low_prio_irq_exit.map fun c' => c'.slot 2) ≠ some (c.frame 2) := by
    decide +kernel
  obtain ⟨c, hc, hcan, hflag, hexec, hslot⟩ := hrun
  have hreach : switchMachine.Reachable c :=
    ((Machine.Reachable.start thread2Runs_first).runs Cpu.next_step hc).of_restrict
  refine ⟨c, hreach, fun h => ?_⟩
  obtain ⟨c', cur, hexit, hslot', -⟩ := h.switch hcan hflag
  rw [hexit, Option.map_some, hslot', hexec, Function.update_self] at hslot
  exact hslot rfl

end Ab32Vg1.Kernel
