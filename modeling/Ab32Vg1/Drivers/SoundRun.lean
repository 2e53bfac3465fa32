import Ab32Vg1.Drivers.Sound

/-! The interrupt that releases the audio thread stays enabled as long as the application threads
leave it alone. -/

namespace Ab32Vg1.Drivers

open Kernel ProofKit Rtos

theorem writeAubufcon_enable (con value : BitVec 32) :
    (writeAubufcon con value).getLsbD AUBUF_ENABLE = value.getLsbD AUBUF_ENABLE := by
  unfold writeAubufcon
  split <;> simp [AUBUF_STATUS, BIT, AUBUF_ENABLE, AUBUF_PEND, AUBUF_FULL, AUBUF_CLEAR]

namespace Sound

variable {c c' : Sound} {t : Tid} {os : Rtos}

structure SoundInv (c : Sound) : Prop where
  inv : Inv c.os
  lists : c.semaphore.suspend_thread ≠ c.cmp.suspended_list
  alone : ∀ u ∈ c.os.suspend_thread c.semaphore.suspend_thread, u = c.audio
  inside : c.Suspended → ∃ n, c.pc = .waiting n
  enabled : c.Awaits → c.AUBUFCON.getLsbD AUBUF_ENABLE = true

theorem Fresh.soundInv (h : Fresh c) : SoundInv c := by
  have hnot : ¬c.Suspended := by simp [Suspended, h.waiting.1]
  refine ⟨h.inv, h.lists, by simp [h.waiting.1], fun hs => absurd hs hnot, ?_⟩
  rintro (hs | ⟨⟨n, hpc⟩, -⟩)
  · exact absurd hs hnot
  · rw [h.pc] at hpc
    cases hpc

/-- A step that leaves the list of the semaphore and the audio thread alone. -/
theorem SoundInv.same {cmp : RtCompletion} {activated stopEvent : Bool} {queued : Nat}
    {AUBUFCON : BitVec 32} {app : Tid → AppPc} (h : SoundInv c) (hinv : Inv os)
    (hcmp : cmp.suspended_list = c.cmp.suspended_list)
    (hmem : ∀ u, u ∈ os.suspend_thread c.semaphore.suspend_thread →
      u ∈ c.os.suspend_thread c.semaphore.suspend_thread)
    (hcon : c.Awaits → AUBUFCON.getLsbD AUBUF_ENABLE = true) :
    SoundInv { c with
      os := os, cmp := cmp, activated := activated, stopEvent := stopEvent, queued := queued
      AUBUFCON := AUBUFCON, app := app } where
  inv := hinv
  lists hl := h.lists (hl.trans hcmp)
  alone u hu := h.alone u (hmem u hu)
  inside hs := h.inside (hmem _ hs)
  enabled ha := hcon (ha.imp (hmem _) fun hp => hp)

/-- A completion resumes a thread of its own list. -/
theorem completion_done_same {cmp cmp' : RtCompletion} {s s' : Rtos} {l : Nat} (h : Inv s)
    (hl : l ≠ cmp.suspended_list) (hs : cmp.rt_completion_done s = some (s', cmp')) :
    Inv s' ∧ (∀ u, u ∈ s'.suspend_thread l → u ∈ s.suspend_thread l) ∧
      cmp'.suspended_list = cmp.suspended_list := by
  unfold RtCompletion.rt_completion_done at hs
  split at hs
  · obtain ⟨rfl, rfl⟩ := Prod.mk.inj (Option.some.inj hs)
    exact ⟨h, fun u hu => hu, rfl⟩
  · split at hs
    · next hlist =>
      obtain ⟨t, rest, hcons⟩ := List.exists_cons_of_ne_nil hlist
      obtain ⟨hresume, hwoken⟩ := rt_ipc_list_resume_woken h hcons
      rw [hresume] at hs
      obtain ⟨rfl, rfl⟩ := Prod.mk.inj (Option.some.inj hs)
      refine ⟨hwoken.inv, fun u hu => ?_, rfl⟩
      rw [hwoken.suspend, if_neg hl] at hu
      exact hu
    · obtain ⟨rfl, rfl⟩ := Prod.mk.inj (Option.some.inj hs)
      exact ⟨h, fun u hu => hu, rfl⟩

/-- A list that is emptied without waking its threads. -/
theorem completion_init_same (cmp : RtCompletion) {s : Rtos} (h : Inv s) :
    Inv (cmp.rt_completion_init s).1 ∧ ∀ l u,
      u ∈ (cmp.rt_completion_init s).1.suspend_thread l → u ∈ s.suspend_thread l := by
  have hmem : ∀ l u, u ∈ Function.update s.suspend_thread cmp.suspended_list [] l →
      u ∈ s.suspend_thread l := by
    intro l u hu
    by_cases hl : l = cmp.suspended_list
    · rw [hl, Function.update_self] at hu
      cases hu
    · rwa [Function.update_of_ne hl] at hu
  refine ⟨SchedInv.mk (fun t ht => ?_) (fun t ht => by cases ht) h.group h.table_nodup
    (fun l => ?_) (fun t l l' hl hl' => h.suspend_unique t l l' (hmem l t hl) (hmem l' t hl'))
    h.defunct_nodup, hmem⟩
  · obtain ⟨h1, h2, h3, h4, h5, h6, h7, h8, h9, h10, h11⟩ := h.thread t ht
    exact ⟨h1, h2, h3, h4, h5, fun l hl => h6 l (hmem l t hl), h7, h8, h9, h10, h11⟩
  · show (Function.update s.suspend_thread cmp.suspended_list [] l).Nodup
    by_cases hl : l = cmp.suspended_list
    · rw [hl, Function.update_self]
      exact List.nodup_nil
    · rw [Function.update_of_ne hl]
      exact h.suspend_nodup l

theorem completion_wait_same {cmp cmp' : RtCompletion} {s s' : Rtos} {l : Nat} {t : Tid}
    {outcome : Outcome} (h : Inv s) (hrun : Runs s t) (hl : l ≠ cmp.suspended_list)
    (hs : cmp.rt_completion_wait s = some (s', cmp', outcome)) :
    Inv s' ∧ (∀ u, u ∈ s'.suspend_thread l → u ∈ s.suspend_thread l) ∧
      cmp'.suspended_list = cmp.suspended_list := by
  unfold RtCompletion.rt_completion_wait at hs
  split at hs
  · simp only [hrun.1, Option.bind_eq_bind, Option.bind_some] at hs
    obtain ⟨-, hs⟩ := RT_ASSERT_bind_eq_some.mp hs
    obtain ⟨os, hwait, hs⟩ := Option.bind_eq_some_iff.mp hs
    obtain ⟨rfl, hrest⟩ := Prod.mk.inj (Option.some.inj hs)
    obtain ⟨rfl, -⟩ := Prod.mk.inj hrest
    have hw := waitOn_waits h hrun.2 hwait
    exact ⟨hw.inv, fun u hu => ((hw.mem l u).mp hu).resolve_right fun hc => hl hc.1, rfl⟩
  · obtain ⟨rfl, hrest⟩ := Prod.mk.inj (Option.some.inj hs)
    obtain ⟨rfl, -⟩ := Prod.mk.inj hrest
    exact ⟨h, fun u hu => hu, rfl⟩

/-- A step of the audio thread to a place where it does not wait. -/
theorem SoundInv.goes {pc : AudioPc} {queued : Nat} (h : SoundInv c) (hnot : ¬c.Suspended)
    (hpc : ∀ n, pc ≠ .pend n) : SoundInv { c with pc := pc, queued := queued } := by
  refine ⟨h.inv, h.lists, h.alone, fun hs => absurd hs hnot, ?_⟩
  rintro (hs | ⟨⟨n, hn⟩, -⟩)
  · exact absurd hs hnot
  · exact absurd hn (hpc n)

theorem SoundInv.runAudio (h : SoundInv c) (hs : c.runAudio = some c') : SoundInv c' := by
  unfold Sound.runAudio at hs
  split at hs
  · next hrun =>
    have hnot : ¬c.Suspended := hrun.not_waiting h.inv _
    cases hpc : c.pc with
    | top =>
      rw [hpc] at hs
      obtain rfl := Option.some.inj hs
      split
      · exact h.goes hnot (by simp)
      · exact h
    | frame =>
      rw [hpc] at hs
      dsimp only at hs
      split at hs
      · split at hs
        · obtain ⟨⟨os, cmp⟩, hdone, rfl⟩ := Option.map_eq_some_iff.mp hs
          obtain ⟨hinv, hlist, hcmp⟩ := completion_done_same h.inv h.lists hdone
          have hsame : SoundInv { c with os := os, cmp := cmp } :=
            h.same hinv hcmp hlist h.enabled
          exact hsame.goes (fun hs => hnot (hlist _ hs)) (by simp)
        · obtain rfl := Option.some.inj hs
          exact h.goes hnot (by simp)
      · obtain rfl := Option.some.inj hs
        exact h.goes hnot (by simp)
    | copy =>
      rw [hpc] at hs
      cases hs
    | transmit n =>
      rw [hpc] at hs
      cases n with
      | zero =>
        obtain rfl := Option.some.inj hs
        exact h.goes hnot (by simp)
      | succ n =>
        obtain rfl := Option.some.inj hs
        refine h.goes hnot fun m => ?_
        split <;> simp
    | enableLoad n =>
      rw [hpc] at hs
      obtain rfl := Option.some.inj hs
      exact h.goes hnot (by simp)
    | enableStore n value =>
      rw [hpc] at hs
      obtain rfl := Option.some.inj hs
      refine ⟨h.inv, h.lists, h.alone, fun hs => absurd hs hnot, fun _ => ?_⟩
      rw [writeAubufcon_enable]
      simp [BIT, AUBUF_ENABLE, AUBUF_CLEAR]
    | pend n =>
      rw [hpc] at hs
      obtain ⟨⟨os, sem, outcome⟩, htake, rfl⟩ := Option.map_eq_some_iff.mp hs
      unfold Semaphore.rt_sem_take at htake
      split at htake
      · obtain ⟨rfl, hrest⟩ := Prod.mk.inj (Option.some.inj htake)
        obtain ⟨rfl, rfl⟩ := Prod.mk.inj hrest
        refine ⟨h.inv, h.lists, h.alone, fun hs => absurd hs hnot, ?_⟩
        rintro (hs | ⟨⟨m, hm⟩, -⟩)
        · exact absurd hs hnot
        · cases hm
      · next hvalue =>
        simp only [hrun.1, Option.bind_eq_bind, Option.bind_some] at htake
        rw [if_neg (by decide)] at htake
        obtain ⟨os', hwait, htake⟩ := Option.bind_eq_some_iff.mp htake
        obtain ⟨rfl, hrest⟩ := Prod.mk.inj (Option.some.inj htake)
        obtain ⟨rfl, rfl⟩ := Prod.mk.inj hrest
        have hw := waitOn_waits h.inv hrun.2 hwait
        refine ⟨hw.inv, h.lists, fun u hu => ?_, fun _ => ⟨n, rfl⟩,
          fun _ => h.enabled (Or.inr ⟨⟨n, hpc⟩, by omega⟩)⟩
        rcases (hw.mem _ u).mp hu with hu | ⟨-, hu⟩
        · exact h.alone u hu
        · exact hu
    | waiting n =>
      rw [hpc] at hs
      obtain rfl := Option.some.inj hs
      exact h.goes hnot (by simp)
    | word n =>
      rw [hpc] at hs
      obtain rfl := Option.some.inj hs
      exact h.goes hnot (by simp)
  · cases hs

theorem SoundInv.copy {items : Nat} (h : SoundInv c) (hs : c.copy items = some c') :
    SoundInv c' := by
  unfold Sound.copy at hs
  split at hs
  · next hcopy =>
    obtain rfl := Option.some.inj hs
    exact h.goes (hcopy.1.not_waiting h.inv _) (by simp)
  · cases hs

/-- The steps of an application thread inside the device. -/
theorem SoundInv.runApp (h : SoundInv c) (hleaves : c.LeavesEnabled (.app t))
    (hs : c.runApp t = some c') : SoundInv c' := by
  have hsame : ∀ (activated stopEvent : Bool) (app : Tid → AppPc), SoundInv { c with
      activated := activated, stopEvent := stopEvent, app := app } :=
    fun activated stopEvent app => h.same h.inv rfl (fun u hu => hu) h.enabled
  have hstore : ∀ (value : BitVec 32) (app : Tid → AppPc), c.stores t = some value →
      SoundInv { c with AUBUFCON := writeAubufcon c.AUBUFCON value, app := app } :=
    fun value app hvalue => h.same h.inv rfl (fun u hu => hu) fun ha => by
      rw [writeAubufcon_enable]
      exact hleaves value hvalue ha
  unfold Sound.runApp at hs
  split at hs
  · next hrun =>
    cases hpc : c.app t <;> rw [hpc] at hs
    case idle => cases hs
    case startStore value =>
      obtain rfl := Option.some.inj hs
      exact hstore _ _ (by simp [stores, hpc])
    case stopStore value =>
      obtain rfl := Option.some.inj hs
      exact hstore _ _ (by simp [stores, hpc])
    case initCmp =>
      obtain rfl := Option.some.inj hs
      obtain ⟨hinv, hmem⟩ := completion_init_same c.cmp h.inv
      exact h.same hinv rfl (hmem _) h.enabled
    case waitCmp =>
      obtain ⟨⟨os, cmp, outcome⟩, hwait, rfl⟩ := Option.map_eq_some_iff.mp hs
      obtain ⟨hinv, hmem, hcmp⟩ := completion_wait_same h.inv hrun.1 h.lists hwait
      cases outcome with
      | returned r => exact h.same hinv hcmp hmem h.enabled
      | suspended => exact h.same hinv hcmp hmem h.enabled
    case waitingCmp =>
      obtain rfl := Option.some.inj hs
      exact h.same h.inv rfl (fun u hu => hu) h.enabled
    all_goals
      obtain rfl := Option.some.inj hs
      exact hsame _ _ _
  · cases hs

/-- The interrupt takes its enable bit back and leaves the audio thread released. -/
theorem SoundInv.isr (h : SoundInv c) (hs : c.isr = some c') : SoundInv c' := by
  unfold Sound.isr at hs
  split at hs
  · obtain ⟨⟨os, sem, r⟩, hrelease, rfl⟩ := Option.map_eq_some_iff.mp hs
    unfold Semaphore.rt_sem_release at hrelease
    split at hrelease
    · next hlist =>
      obtain ⟨u, rest, hcons⟩ := List.exists_cons_of_ne_nil hlist
      obtain rfl := h.alone u (by rw [hcons]; exact List.mem_cons_self)
      obtain ⟨n, hpc⟩ := h.inside (by unfold Suspended; rw [hcons]; exact List.mem_cons_self)
      obtain ⟨hresume, hwoken⟩ := rt_ipc_list_resume_woken h.inv hcons
      rw [hresume] at hrelease
      obtain ⟨rfl, hrest⟩ := Prod.mk.inj (Option.some.inj hrelease)
      obtain ⟨rfl, -⟩ := Prod.mk.inj hrest
      -- the audio thread was alone in the list
      have hnil : rest = [] := by
        have hnodup := h.inv.suspend_nodup c.semaphore.suspend_thread
        rw [hcons] at hnodup
        refine List.eq_nil_iff_forall_not_mem.mpr fun u hu => ?_
        have hau := h.alone u (by rw [hcons]; exact List.mem_cons_of_mem _ hu)
        exact (List.nodup_cons.mp hnodup).1 (hau ▸ hu)
      have hnot : ∀ u, u ∉ (wake c.os c.audio).suspend_thread c.semaphore.suspend_thread := by
        intro u
        rw [hwoken.suspend, if_pos rfl, hcons, hnil, List.tail_cons]
        exact List.not_mem_nil
      refine ⟨hwoken.inv, h.lists, fun u hu => absurd hu (hnot u), fun _ => ⟨n, hpc⟩, ?_⟩
      rintro (hsusp | ⟨⟨m, hm⟩, -⟩)
      · exact absurd hsusp (hnot _)
      · rw [hpc] at hm
        cases hm
    · next hlist =>
      have hnil := of_not_not hlist
      have hnot : ∀ u, u ∉ c.os.suspend_thread c.semaphore.suspend_thread := by simp [hnil]
      split at hrelease
      · obtain ⟨rfl, hrest⟩ := Prod.mk.inj (Option.some.inj hrelease)
        obtain ⟨rfl, -⟩ := Prod.mk.inj hrest
        refine ⟨h.inv, h.lists, h.alone, h.inside, ?_⟩
        rintro (hsusp | ⟨-, hvalue⟩)
        · exact absurd hsusp (hnot _)
        · exact absurd hvalue (Nat.succ_ne_zero _)
      · next hfull =>
        obtain ⟨rfl, hrest⟩ := Prod.mk.inj (Option.some.inj hrelease)
        obtain ⟨rfl, -⟩ := Prod.mk.inj hrest
        refine ⟨h.inv, h.lists, h.alone, h.inside, ?_⟩
        rintro (hsusp | ⟨-, hvalue⟩)
        · exact absurd hsusp (hnot _)
        · rw [show c.semaphore.value = 0 from hvalue] at hfull
          exact absurd (by decide) hfull
  · cases hs

/-- A step of another thread or of the scheduler. -/
theorem SoundInv.elsewhere {ls : Nat → Prop} {busy : Tid → Prop} (h : SoundInv c)
    (he : Elsewhere ls busy c.os os) (hl : ls c.semaphore.suspend_thread) :
    SoundInv { c with os := os } :=
  h.same he.inv rfl (fun u hu => by rwa [he.suspend _ hl] at hu) h.enabled

theorem hardware_enable (con : BitVec 32) (pend full : Bool) :
    ((con &&& ~~~AUBUF_STATUS) ||| (if pend then BIT AUBUF_PEND else 0) |||
      (if full then BIT AUBUF_FULL else 0)).getLsbD AUBUF_ENABLE = con.getLsbD AUBUF_ENABLE := by
  cases pend <;> cases full <;> simp [AUBUF_STATUS, BIT, AUBUF_ENABLE, AUBUF_PEND, AUBUF_FULL]

theorem SoundInv.step {l : SoundStep} (h : SoundInv c) (hleaves : c.LeavesEnabled l)
    (hs : c.step l = some c') : SoundInv c' := by
  cases l with
  | audio => exact h.runAudio hs
  | copy items => exact h.copy hs
  | write t =>
    simp only [Sound.step] at hs
    split at hs
    · obtain rfl := Option.some.inj hs
      exact h.same h.inv rfl (fun u hu => hu) h.enabled
    · cases hs
  | push t =>
    simp only [Sound.step] at hs
    split at hs
    · obtain rfl := Option.some.inj hs
      exact h.same h.inv rfl (fun u hu => hu) h.enabled
    · cases hs
  | stop t =>
    simp only [Sound.step] at hs
    split at hs
    · obtain rfl := Option.some.inj hs
      exact h.same h.inv rfl (fun u hu => hu) h.enabled
    · cases hs
  | app t => exact h.runApp hleaves hs
  | isr => exact h.isr hs
  | hardware pend full =>
    obtain rfl := Option.some.inj hs
    exact h.same h.inv rfl (fun u hu => hu) fun ha => (hardware_enable _ pend full).trans (h.enabled ha)
  | schedule =>
    obtain ⟨os, hsched, rfl⟩ := Option.map_eq_some_iff.mp hs
    have he : Elsewhere c.lists c.busy c.os os := rt_schedule_elsewhere h.inv hsched
    exact h.elsewhere he (Or.inl rfl)
  | other os => cases hs

/-- Every state that is reached without such a write. -/
theorem reachable_soundInv (hr : (soundMachine.restrict LeavesEnabled).Reachable c) : SoundInv c := by
  apply hr.invariant
  · exact fun c h => h.soundInv
  · rintro c l c' - h ⟨hleaves, hs | ⟨os, -, rfl, he⟩⟩
    · exact h.step hleaves hs
    · exact h.elsewhere he (Or.inl rfl)

end Sound

theorem audio_wakeable {c : Sound} (hr : (soundMachine.restrict Sound.LeavesEnabled).Reachable c) :
    SoundContract c :=
  fun hs _ => (Sound.reachable_soundInv hr).enabled (Or.inl hs)

/-- Thread 2 is the audio thread and has the priority of the application thread 1. -/
def equalPriority : Option Rtos := do
  let s ← startedThreads
  s.rt_thread_control_priority 2 1

theorem equalPriority_inv {os : Rtos} (h : equalPriority = some os) : Inv os := by
  unfold equalPriority at h
  obtain ⟨s, hs, h⟩ := Option.bind_eq_some_iff.mp h
  exact rt_thread_control_priority_inv (startedThreads_inv hs) (by decide) h

/-- The device before it is opened. -/
def closedSound (os : Rtos) : Sound :=
  { os := os, audio := 2, semaphore := ⟨0, 0, .fifo⟩, cmp := ⟨false, 1⟩, activated := false
    stopEvent := false, queued := 0, AUBUFCON := 0, pc := .top, app := fun _ => .idle }

theorem closedSound_fresh {os : Rtos} (h : Inv os)
    (hlists : os.suspend_thread 0 = [] ∧ os.suspend_thread 1 = []) : (closedSound os).Fresh :=
  ⟨h, by simp [closedSound], hlists, rfl, ⟨rfl, rfl⟩, rfl, fun _ => rfl⟩

/-- The application writes a block, which starts the replay, and asks the audio thread to stop. -/
def writeAndStop : List SoundStep :=
  [.write 1, .push 1, .app 1, .app 1, .app 1, .app 1, .app 1, .stop 1, .app 1, .app 1, .app 1,
    .app 1, .schedule]

/-- The audio thread sends the block. -/
def sendBlock : List SoundStep :=
  [.audio, .audio, .copy 1] ++ List.replicate (2 * FRAME_WORDS) .audio

/-- The hardware buffer is full, and the audio thread waits for room. -/
def waitForRoom : List SoundStep :=
  [.hardware false true, .audio, .audio, .audio, .audio]

def Sound.stepLeaves (c : Sound) (l : SoundStep) : Option Sound :=
  if c.LeavesEnabled l then c.step l else none

theorem audio_wakeable_pending : ∃ os, equalPriority = some os ∧
    ∃ c, Machine.runs Sound.stepLeaves (closedSound os) (writeAndStop ++ [.audio, .audio, .copy 1] ++ waitForRoom) = some c ∧
      c.Suspended ∧ SoundContract c := by
  have hrun : ∃ os, equalPriority = some os ∧
      (os.suspend_thread 0 = [] ∧ os.suspend_thread 1 = []) ∧
      ∃ c, Machine.runs Sound.stepLeaves (closedSound os) (writeAndStop ++ [.audio, .audio, .copy 1] ++ waitForRoom) = some c ∧
        c.Suspended := by
    decide +kernel
  obtain ⟨os, hos, hlists, c, hc, hsusp⟩ := hrun
  refine ⟨os, hos, c, hc, hsusp, audio_wakeable ?_⟩
  refine (Machine.Reachable.start (closedSound_fresh (equalPriority_inv hos) hlists)).runs
    (fun c l c' hs => ?_) hc
  unfold Sound.stepLeaves at hs
  split at hs
  · exact ⟨‹_›, Or.inl hs⟩
  · cases hs

/-- With its next frame the audio thread finds the queue empty, tells that the replay has stopped
and waits for room; the application goes on with `sound_stop`. -/
def stopInFrame : List SoundStep :=
  writeAndStop ++ sendBlock ++ [.audio, .audio, .audio] ++ waitForRoom ++
    [.schedule, .app 1, .app 1, .app 1, .app 1]

theorem audio_not_wakeable : ∃ c, soundMachine.Reachable c ∧
    c.Suspended ∧ c.semaphore.value = 0 ∧ c.AUBUFCON.getLsbD AUBUF_ENABLE = false ∧
      ¬SoundContract c := by
  have hrun : ∃ os, equalPriority = some os ∧
      (os.suspend_thread 0 = [] ∧ os.suspend_thread 1 = []) ∧
      ∃ c, Machine.runs Sound.step (closedSound os) stopInFrame = some c ∧
        c.Suspended ∧ c.semaphore.value = 0 ∧ c.AUBUFCON.getLsbD AUBUF_ENABLE = false := by
    decide +kernel
  obtain ⟨os, hos, hlists, c, hc, hsusp, hvalue, hcon⟩ := hrun
  refine ⟨c, ?_, hsusp, hvalue, hcon, fun hcontract => ?_⟩
  · exact (Machine.Reachable.start (closedSound_fresh (equalPriority_inv hos) hlists)).runs
      (fun _ _ _ hs => Or.inl hs) hc
  · have := hcontract hsusp hvalue
    rw [hcon] at this
    cases this

end Ab32Vg1.Drivers
