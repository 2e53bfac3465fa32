import Ab32Vg1.Kernel.Mailbox

/-! Runs of the mailbox.  The mailbox and the abstract queue change together; on each side, the
mails (or the room) that waiting threads could use are covered by resumed threads. -/

namespace Ab32Vg1.Kernel

open ProofKit Rtos MbSystem

/-! ### What the critical sections do -/

section

variable {s s' : Rtos} {t : Tid} {l : Nat}

/-- The first thread of the list, if any, is resumed. -/
def FirstResumed (s s' : Rtos) (l : Nat) : Prop :=
  s.suspend_thread l = [] ∧ s' = s ∨
    ∃ t rest, s.suspend_thread l = t :: rest ∧ Woken s s' l t

theorem resumeFirst_resumed (h : Inv s) (hs : s.resumeFirst l = some s') :
    FirstResumed s s' l := by
  unfold Rtos.resumeFirst at hs
  by_cases hl : s.suspend_thread l = []
  · rw [if_neg (not_not.mpr hl)] at hs
    exact Or.inl ⟨hl, (Option.some.inj hs).symm⟩
  · rw [if_pos hl] at hs
    obtain ⟨t, rest, hcons⟩ := List.exists_cons_of_ne_nil hl
    obtain ⟨hres, hw⟩ := rt_ipc_list_resume_woken h hcons
    obtain rfl := Option.some.inj (hres.symm.trans hs)
    exact Or.inr ⟨t, rest, hcons, hw⟩

/-- The mailbox after a mail is put at its end. -/
def Mailbox.putBack (mb : Mailbox) (value : BitVec 32) : Mailbox :=
  { mb with
    msg_pool := Function.update mb.msg_pool mb.in_offset value
    in_offset := Ring.next mb.size mb.in_offset
    entry := mb.entry + 1 }

/-- The mailbox after a mail is put at its front. -/
def Mailbox.putFront (mb : Mailbox) (value : BitVec 32) : Mailbox :=
  { mb with
    out_offset := Ring.previous mb.size mb.out_offset
    msg_pool := Function.update mb.msg_pool (Ring.previous mb.size mb.out_offset) value
    entry := mb.entry + 1 }

/-- The mailbox after the mail at its front is taken. -/
def Mailbox.takeFront (mb : Mailbox) : Mailbox :=
  { mb with out_offset := Ring.next mb.size mb.out_offset, entry := mb.entry - 1 }

/-- How a part of a send of the thread `t` ends. -/
inductive SendEnds (mb : Mailbox) (s : Rtos) (t : Tid) (value : BitVec 32) :
    Rtos × Mailbox × Outcome → Prop where
  | full (hfull : mb.entry = mb.size) : SendEnds mb s t value
      (s.setThread t fun th => { th with error := RT_EOK }, mb, .returned (-RT_EFULL))
  | waits {os : Rtos} (hfull : mb.entry = mb.size)
      (hw : Runs s t → Waits s os mb.suspend_sender_thread t) :
      SendEnds mb s t value (os, mb, .suspended)
  | sent {os : Rtos} (hroom : mb.entry ≠ mb.size) (hr : FirstResumed s os mb.suspend_thread) :
      SendEnds mb s t value (os, mb.putBack value, .returned RT_EOK)

theorem put_ends {mb : Mailbox} {value : BitVec 32} {r : Rtos × Mailbox × Outcome} (h : Inv s)
    (hroom : mb.entry ≠ mb.size) (hentry : mb.entry ≤ mb.size) (hsize : mb.size ≤ RT_MB_ENTRY_MAX)
    (hs : mb.put s value = some r) : ∃ os, FirstResumed s os mb.suspend_thread ∧
      r = (os, mb.putBack value, .returned RT_EOK) := by
  unfold Mailbox.put at hs
  dsimp only at hs
  rw [if_pos (by omega)] at hs
  obtain ⟨os, hres, hs⟩ := Option.bind_eq_some_iff.mp hs
  obtain rfl := Option.some.inj hs
  exact ⟨os, resumeFirst_resumed h hres, rfl⟩

theorem sendLoop_ends {mb : Mailbox} {value : BitVec 32} {timeout : Int}
    {r : Rtos × Mailbox × Outcome} (h : Inv s) (hcur : s.rt_current_thread = some t)
    (hentry : mb.entry ≤ mb.size) (hsize : mb.size ≤ RT_MB_ENTRY_MAX)
    (hs : mb.sendLoop s value timeout = some r) : SendEnds mb s t value r := by
  unfold Mailbox.sendLoop at hs
  by_cases hfull : mb.entry = mb.size
  · rw [if_pos hfull, hcur] at hs
    simp only [Option.bind_eq_bind, Option.bind_some] at hs
    by_cases htime : timeout = 0
    · rw [if_pos htime] at hs
      obtain rfl := Option.some.inj hs
      exact .full hfull
    · rw [if_neg htime] at hs
      obtain ⟨os, hwait, hs⟩ := Option.bind_eq_some_iff.mp hs
      obtain rfl := Option.some.inj hs
      exact .waits hfull fun hrun => waitOn_waits h hrun.2 hwait
  · rw [if_neg hfull] at hs
    obtain ⟨os, hres, rfl⟩ := put_ends h hfull hentry hsize hs
    exact .sent hfull hres

/-- How a part of a receive of the thread `t` ends. -/
inductive RecvEnds (mb : Mailbox) (s : Rtos) (t : Tid) :
    Rtos × Mailbox × Outcome × Option (BitVec 32) → Prop where
  | empty (hempty : mb.entry = 0) : RecvEnds mb s t
      (s.setThread t fun th => { th with error := -RT_ETIMEOUT }, mb, .returned (-RT_ETIMEOUT), none)
  | waits {os : Rtos} (hempty : mb.entry = 0) (hw : Runs s t → Waits s os mb.suspend_thread t) :
      RecvEnds mb s t (os, mb, .suspended, none)
  | received {os : Rtos} (hsome : mb.entry ≠ 0) (hr : FirstResumed s os mb.suspend_sender_thread) :
      RecvEnds mb s t (os, mb.takeFront, .returned RT_EOK, some (mb.msg_pool mb.out_offset))

theorem get_ends {mb : Mailbox} {r : Rtos × Mailbox × Outcome × Option (BitVec 32)} (h : Inv s)
    (hsome : mb.entry ≠ 0) (hs : mb.get s = some r) :
    ∃ os, FirstResumed s os mb.suspend_sender_thread ∧
      r = (os, mb.takeFront, .returned RT_EOK, some (mb.msg_pool mb.out_offset)) := by
  unfold Mailbox.get at hs
  dsimp only at hs
  rw [if_pos (by omega)] at hs
  obtain ⟨os, hres, hs⟩ := Option.bind_eq_some_iff.mp hs
  obtain rfl := Option.some.inj hs
  exact ⟨os, resumeFirst_resumed h hres, rfl⟩

theorem recvLoop_ends {mb : Mailbox} {timeout : Int}
    {r : Rtos × Mailbox × Outcome × Option (BitVec 32)} (h : Inv s)
    (hcur : s.rt_current_thread = some t) (hs : mb.recvLoop s timeout = some r) :
    RecvEnds mb s t r := by
  unfold Mailbox.recvLoop at hs
  by_cases hempty : mb.entry = 0
  · rw [if_pos hempty, hcur] at hs
    simp only [Option.bind_eq_bind, Option.bind_some] at hs
    by_cases htime : timeout = 0
    · rw [if_pos htime] at hs
      obtain rfl := Option.some.inj hs
      have hset : ((s.setThread t fun th => { th with error := RT_EOK }).setThread t fun th =>
          { th with error := -RT_ETIMEOUT }) = s.setThread t fun th =>
          { th with error := -RT_ETIMEOUT } := by
        simp [setThread]
      rw [hset]
      exact .empty hempty
    · rw [if_neg htime] at hs
      obtain ⟨os, hwait, hs⟩ := Option.bind_eq_some_iff.mp hs
      obtain rfl := Option.some.inj hs
      exact .waits hempty fun hrun => waitOn_waits h hrun.2 hwait
  · rw [if_neg hempty] at hs
    obtain ⟨os, hres, rfl⟩ := get_ends h hempty hs
    exact .received hempty hres

end

/-! ### The pool and the queue -/

namespace MbSystem

/-- The mailbox holds the abstract queue, whose mails are those accepted and not yet received. -/
structure MbData (c : MbSystem) : Prop where
  size : c.mb.size ≤ RT_MB_ENTRY_MAX
  lists : c.mb.suspend_thread ≠ c.mb.suspend_sender_thread
  pool : Ring.Holds c.mb.msg_pool c.mb.size c.mb.in_offset c.mb.out_offset (c.queue.map Mail.value)
  entry : c.mb.entry = c.queue.length
  perm : (c.received ++ c.queue).Perm c.accepted
  ids : c.accepted.map Mail.id = List.range c.accepted.length

variable {c c' : MbSystem} {t u : Tid}

theorem MbData.bound (h : MbData c) : c.mb.entry ≤ c.mb.size := by
  have hroom := h.pool.room
  rw [List.length_map] at hroom
  rw [h.entry]
  exact hroom

theorem MbData.congr (h : MbData c) (hmb : c'.mb = c.mb) (hq : c'.queue = c.queue)
    (ha : c'.accepted = c.accepted) (hr : c'.received = c.received) : MbData c' := by
  obtain ⟨h1, h2, h3, h4, h5, h6⟩ := h
  constructor <;> simp only [hmb, hq, ha, hr] <;> assumption

theorem ids_snoc {mails : List Mail} {value : BitVec 32}
    (h : mails.map Mail.id = List.range mails.length) :
    (mails ++ [(⟨mails.length, value⟩ : Mail)]).map Mail.id =
      List.range (mails ++ [(⟨mails.length, value⟩ : Mail)]).length := by
  rw [List.map_append, h, List.length_append, List.length_singleton, List.range_succ]
  rfl

theorem MbData.enqueue {value : BitVec 32} {os : Rtos} {pc : Tid → MbPc} (h : MbData c)
    (hroom : c.mb.entry ≠ c.mb.size) :
    MbData (MbSystem.enqueue { c with os := os, mb := c.mb.putBack value, pc := pc } value) := by
  have hlt : (c.queue.map Mail.value).length < c.mb.size := by
    rw [List.length_map, ← h.entry]
    have hb := h.bound
    omega
  refine ⟨h.size, h.lists, ?_, ?_, ?_, ids_snoc h.ids⟩
  · simp only [MbSystem.enqueue, List.map_append, List.map_cons, List.map_nil]
    exact h.pool.pushBack hlt
  · simp [MbSystem.enqueue, Mailbox.putBack, h.entry]
  · simp only [MbSystem.enqueue]
    rw [← List.append_assoc]
    exact h.perm.append_right _

theorem MbData.enqueueUrgent {value : BitVec 32} {os : Rtos} (h : MbData c)
    (hroom : c.mb.entry ≠ c.mb.size) :
    MbData (MbSystem.enqueueUrgent { c with os := os, mb := c.mb.putFront value } value) := by
  have hlt : (c.queue.map Mail.value).length < c.mb.size := by
    rw [List.length_map, ← h.entry]
    have hb := h.bound
    omega
  refine ⟨h.size, h.lists, ?_, ?_, ?_, ids_snoc h.ids⟩
  · simp only [MbSystem.enqueueUrgent, List.map_cons]
    exact h.pool.pushFront hlt
  · simp [MbSystem.enqueueUrgent, Mailbox.putFront, h.entry]
  · simp only [MbSystem.enqueueUrgent]
    refine List.perm_middle.trans ?_
    exact (h.perm.cons _).trans (List.perm_append_singleton _ _).symm

/-- The mail that a receiver gets is the front of the abstract queue. -/
theorem MbData.dequeue (h : MbData c) (os : Rtos) (pc : Tid → MbPc) (hsome : c.mb.entry ≠ 0) :
    ∃ mail queue, c.queue = mail :: queue ∧ c.mb.msg_pool c.mb.out_offset = mail.value ∧
      MbSystem.dequeue { c with os := os, mb := c.mb.takeFront, pc := pc }
        (c.mb.msg_pool c.mb.out_offset) =
        { c with
          os := os, mb := c.mb.takeFront, pc := pc, queue := queue
          received := c.received ++ [mail] } ∧
      MbData { c with
        os := os, mb := c.mb.takeFront, pc := pc, queue := queue
        received := c.received ++ [mail] } := by
  cases hq : c.queue with
  | nil => exact absurd (by simp [h.entry, hq]) hsome
  | cons mail queue =>
    have hpool := h.pool
    rw [hq, List.map_cons] at hpool
    have hfront := hpool.front
    refine ⟨mail, queue, rfl, hfront, ?_, h.size, h.lists, hpool.popFront, ?_, ?_, h.ids⟩
    · simp only [MbSystem.dequeue, hfront]
    · simp [Mailbox.takeFront, h.entry, hq]
    · have hperm := h.perm
      rw [hq] at hperm
      simpa using hperm

/-! ### The waiting threads -/

/-- What the waiting threads of a side wait for: room, or mails. -/
def ready (c : MbSystem) : Side → Nat
  | .sender => c.mb.size - c.mb.entry
  | .receiver => c.mb.entry

/-- Resumed threads cover what is ready for the waiting ones, up to `slack`. -/
def Enough (c : MbSystem) (side : Side) (slack : Nat) : Prop :=
  c.waiting side ≠ [] → ∃ resumed : List Tid, resumed.Nodup ∧
    (∀ t ∈ resumed, c.Resumed side t) ∧ c.ready side ≤ resumed.length + slack

/-- The invariant of the lists.  A thread that goes on after it was resumed is not yet done with
what it was resumed for: its side has a `slack` of one. -/
structure MbWaits (c : MbSystem) (slack : Option Side) : Prop where
  inv : Inv c.os
  listed : ∀ side, ∀ t ∈ c.waiting side, (c.pc t).side = some side ∧
    (c.os.threads t).error = RT_EOK
  timer : ∀ t, c.busy t = true → (c.os.threads t).thread_timer.activated = true →
    ∃ side, t ∈ c.waiting side
  enough : ∀ side, c.Enough side (if slack = some side then 1 else 0)

theorem busy_iff : c.busy t = true ↔ c.pc t ≠ .idle := by simp [busy]

theorem busy_of_side {side : Side} (h : (c.pc t).side = some side) : c.busy t = true := by
  rw [busy_iff]
  intro hidle
  rw [hidle] at h
  cases h

theorem side_ne_other (side : Side) : side ≠ side.other := by cases side <;> simp [Side.other]

theorem eq_or_eq_other (side side' : Side) : side' = side ∨ side' = side.other := by
  cases side <;> cases side' <;> simp [Side.other]

theorem Fresh.mbWaits (h : Fresh c) : MbWaits c none where
  inv := h.inv
  listed side t ht := by simp [h.waiting] at ht
  timer t ht := by simp [busy_iff, h.pc] at ht
  enough side hne := absurd (h.waiting side) hne

theorem Fresh.mbData (h : Fresh c) : MbData c where
  size := h.size
  lists := h.lists
  pool := by
    rw [h.in_offset, h.out_offset, h.queue]
    exact Ring.Holds.empty _ _
  entry := by rw [h.entry, h.queue]; rfl
  perm := by rw [h.received, h.queue, h.accepted]; exact List.Perm.refl _
  ids := by rw [h.accepted]; rfl

/-- More slack. -/
theorem MbWaits.weaken (h : MbWaits c none) (side : Side) : MbWaits c (some side) := by
  refine ⟨h.inv, h.listed, h.timer, fun side' hne => ?_⟩
  obtain ⟨resumed, hnd, hres, hle⟩ := h.enough side' hne
  rw [if_neg (by simp)] at hle
  exact ⟨resumed, hnd, hres, by omega⟩

/-- Nothing is ready for the threads of the side. -/
theorem MbWaits.nothing {side : Side} (h : MbWaits c (some side)) (hzero : c.ready side = 0) :
    MbWaits c none := by
  refine ⟨h.inv, h.listed, h.timer, fun side' hne => ?_⟩
  by_cases hside : side' = side
  · subst hside
    exact ⟨[], List.nodup_nil, fun t ht => by simp at ht, by omega⟩
  · obtain ⟨resumed, hnd, hres, hle⟩ := h.enough side' hne
    rw [if_neg (by simpa using Ne.symm hside)] at hle
    exact ⟨resumed, hnd, hres, by simpa using hle⟩

/-- Nothing else of the system matters. -/
theorem MbWaits.congr {slack : Option Side} (h : MbWaits c slack) (hos : c'.os = c.os)
    (hmb : c'.mb = c.mb) (hpc : c'.pc = c.pc) : MbWaits c' slack := by
  obtain ⟨os, mb, tick, pc, queue, accepted, received⟩ := c
  obtain ⟨os', mb', tick', pc', queue', accepted', received'⟩ := c'
  obtain rfl : os' = os := hos
  obtain rfl : mb' = mb := hmb
  obtain rfl : pc' = pc := hpc
  exact ⟨h.inv, h.listed, h.timer, h.enough⟩

/-- Steps that leave the lists and the threads of the mailbox alone. -/
theorem MbWaits.elsewhere {os : Rtos} {slack : Option Side} (h : MbWaits c slack)
    (he : Elsewhere (fun l => ∃ side, l = c.list side) (fun t => c.busy t = true) c.os os) :
    MbWaits { c with os := os } slack := by
  have hlist : ∀ side, os.suspend_thread (c.list side) = c.waiting side := fun side =>
    he.suspend _ ⟨side, rfl⟩
  refine ⟨he.inv, fun side t ht => ?_, fun t ht hact => ?_, fun side hne => ?_⟩
  · obtain ⟨h1, h2⟩ := h.listed side t (hlist side ▸ ht)
    exact ⟨h1, (he.kept t (busy_of_side h1)).error.trans h2⟩
  · obtain ⟨side, hside⟩ := h.timer t ht ((he.kept t ht).timer hact)
    refine ⟨side, ?_⟩
    show t ∈ os.suspend_thread (c.list side)
    rw [hlist]
    exact hside
  · have hne' : c.waiting side ≠ [] := fun hnil => hne ((hlist side).trans hnil)
    obtain ⟨resumed, hnd, hres, hle⟩ := h.enough side hne'
    refine ⟨resumed, hnd, fun t ht => ?_, hle⟩
    obtain ⟨h1, h2, h3⟩ := hres t ht
    refine ⟨h1, ?_, (he.kept t (busy_of_side h1)).error.trans h3⟩
    show t ∉ os.suspend_thread (c.list side)
    rw [hlist]
    exact h2

/-- A thread that is in no list stops using the mailbox.  It may have been a resumed one. -/
theorem MbWaits.leave (h : MbWaits c none) (side : Side) (hnot : ∀ side, t ∉ c.waiting side)
    (hside : (c.pc t).side = some side ∨ c.pc t = .idle) :
    MbWaits { c with pc := Function.update c.pc t .idle } (some side) := by
  refine ⟨h.inv, fun side' u hu => ?_, fun u hu hact => ?_, fun side' hne => ?_⟩
  · have hut : u ≠ t := fun heq => hnot side' (heq ▸ hu)
    obtain ⟨h1, h2⟩ := h.listed side' u hu
    exact ⟨by simpa [hut] using h1, h2⟩
  · have hut : u ≠ t := by
      rintro rfl
      simp [busy] at hu
    exact h.timer u (by simpa [busy, hut] using hu) hact
  · obtain ⟨resumed, hnd, hres, hle⟩ := h.enough side' hne
    rw [if_neg (by simp)] at hle
    have hmem : ∀ u ∈ resumed.erase t, MbSystem.Resumed
        { c with pc := Function.update c.pc t .idle } side' u := by
      intro u hu
      obtain ⟨hut, hu⟩ := hnd.mem_erase_iff.mp hu
      obtain ⟨h1, h2, h3⟩ := hres u hu
      exact ⟨by simpa [hut] using h1, h2, h3⟩
    refine ⟨resumed.erase t, hnd.erase t, hmem, ?_⟩
    show c.ready side' ≤ _
    by_cases hin : t ∈ resumed
    · -- only a thread of this side was among them
      have hpc := (hres t hin).1
      have heq : side' = side := by
        rcases hside with hs | hs
        · exact Option.some.inj (hpc.symm.trans hs)
        · rw [hs] at hpc
          cases hpc
      have hpos := List.length_pos_of_mem hin
      rw [List.length_erase_of_mem hin, if_pos (by rw [heq])]
      omega
    · rw [List.erase_of_not_mem hin]
      omega

/-- A thread that was not resumed stops using the mailbox. -/
theorem MbWaits.leave_failed (h : MbWaits c none) (hnot : ∀ side, t ∉ c.waiting side)
    (herr : (c.os.threads t).error ≠ RT_EOK) :
    MbWaits { c with pc := Function.update c.pc t .idle } none := by
  refine ⟨h.inv, fun side' u hu => ?_, fun u hu hact => ?_, fun side' hne => ?_⟩
  · have hut : u ≠ t := fun heq => hnot side' (heq ▸ hu)
    obtain ⟨h1, h2⟩ := h.listed side' u hu
    exact ⟨by simpa [hut] using h1, h2⟩
  · have hut : u ≠ t := by
      rintro rfl
      simp [busy] at hu
    exact h.timer u (by simpa [busy, hut] using hu) hact
  · obtain ⟨resumed, hnd, hres, hle⟩ := h.enough side' hne
    refine ⟨resumed, hnd, fun u hu => ?_, hle⟩
    obtain ⟨h1, h2, h3⟩ := hres u hu
    have hut : u ≠ t := fun heq => herr (heq ▸ h3)
    exact ⟨by simpa [hut] using h1, h2, h3⟩

/-- The running thread begins to wait on a side for which nothing is ready. -/
theorem MbWaits.begins {os : Rtos} {side : Side} (h : MbWaits c (some side)) (pc : MbPc)
    (hidle : c.pc t = .idle) (hzero : c.ready side = 0) (hpc : pc.side = some side)
    (hlists : c.list side ≠ c.list side.other) (hw : Waits c.os os (c.list side) t) :
    MbWaits { c with os := os, pc := Function.update c.pc t pc } none := by
  have hmem : ∀ side' u, u ∈ os.suspend_thread (c.list side') ↔
      u ∈ c.waiting side' ∨ side' = side ∧ u = t := by
    intro side' u
    rw [hw.mem]
    refine or_congr Iff.rfl (and_congr_left fun _ => ?_)
    rcases eq_or_eq_other side side' with rfl | rfl
    · simp
    · exact iff_of_false (Ne.symm hlists) (side_ne_other side).symm
  have hbusy : c.busy t = false := by simp [busy, hidle]
  have hother : ∀ u, c.busy u = true → u ≠ t := by
    rintro u hu rfl
    rw [hbusy] at hu
    cases hu
  refine ⟨hw.inv, fun side' u hu => ?_, fun u hu hact => ?_, fun side' hne => ?_⟩
  · rcases (hmem side' u).mp hu with hu | ⟨rfl, rfl⟩
    · obtain ⟨h1, h2⟩ := h.listed side' u hu
      have hut := hother u (busy_of_side h1)
      exact ⟨by simpa [hut] using h1, by rw [hw.other u hut]; exact h2⟩
    · exact ⟨by simpa using hpc, hw.error⟩
  · by_cases hut : u = t
    · exact ⟨side, (hmem side u).mpr (Or.inr ⟨rfl, hut⟩)⟩
    · have hact' : (os.threads u).thread_timer.activated = true := hact
      rw [hw.other u hut] at hact'
      obtain ⟨side', hside'⟩ := h.timer u (by simpa [busy, hut] using hu) hact'
      exact ⟨side', (hmem side' u).mpr (Or.inl hside')⟩
  · rcases eq_or_eq_other side side' with rfl | rfl
    · refine ⟨[], List.nodup_nil, fun u hu => by simp at hu, ?_⟩
      show c.ready side' ≤ _
      omega
    · have hne' : c.waiting side.other ≠ [] := by
        intro hnil
        obtain ⟨u, hu⟩ := List.exists_mem_of_ne_nil _ hne
        rcases (hmem _ u).mp hu with hu | ⟨heq, -⟩
        · rw [hnil] at hu
          cases hu
        · exact side_ne_other side heq.symm
      obtain ⟨resumed, hnd, hres, hle⟩ := h.enough side.other hne'
      rw [if_neg (by simpa using side_ne_other side)] at hle
      refine ⟨resumed, hnd, fun u hu => ?_, hle⟩
      obtain ⟨h1, h2, h3⟩ := hres u hu
      have hut := hother u (busy_of_side h1)
      refine ⟨by simpa [hut] using h1, fun hin => ?_, by rw [hw.other u hut]; exact h3⟩
      rcases (hmem _ u).mp hin with hin | ⟨heq, -⟩
      · exact h2 hin
      · exact side_ne_other side heq.symm

/-- A thread, or a handler, uses what was ready on its side, and resumes a thread of the other side
for what it leaves there. -/
theorem MbWaits.uses {os : Rtos} {side : Side} (h : MbWaits c (some side)) (mb : Mailbox)
    (hlist : ∀ side', MbSystem.list { c with os := os, mb := mb } side' = c.list side')
    (hready : MbSystem.ready { c with os := os, mb := mb } side + 1 = c.ready side)
    (hready' : MbSystem.ready { c with os := os, mb := mb } side.other = c.ready side.other + 1)
    (hlists : c.list side ≠ c.list side.other)
    (hr : FirstResumed c.os os (c.list side.other)) : MbWaits { c with os := os, mb := mb } none := by
  let c1 : MbSystem := { c with os := os, mb := mb }
  rcases hr with ⟨hnil, rfl⟩ | ⟨t, rest, hcons, hw⟩
  · -- nobody waits on the other side
    have hwait : ∀ side', c1.waiting side' = c.waiting side' := fun side' =>
      congrArg c.os.suspend_thread (hlist side')
    refine ⟨h.inv, fun side' u hu => h.listed side' u (hwait side' ▸ hu), fun u hu hact => ?_,
      fun side' hne => ?_⟩
    · obtain ⟨side', hside'⟩ := h.timer u hu hact
      exact ⟨side', (hwait side').symm ▸ hside'⟩
    · have hne' : c.waiting side' ≠ [] := by
        rw [← hwait]
        exact hne
      rcases eq_or_eq_other side side' with rfl | rfl
      · obtain ⟨resumed, hnd, hres, hle⟩ := h.enough side' hne'
        rw [if_pos rfl] at hle
        refine ⟨resumed, hnd, fun u hu => ?_, by simp only [reduceCtorEq, if_false]; omega⟩
        obtain ⟨h1, h2, h3⟩ := hres u hu
        exact ⟨h1, (hwait side').symm ▸ h2, h3⟩
      · exact absurd hnil hne'
  · -- the first thread of the other side is resumed
    have hwait : ∀ side', c1.waiting side' = if side' = side.other then rest
        else c.waiting side' := by
      intro side'
      show os.suspend_thread (c1.list side') = _
      rw [hlist, hw.suspend, hcons, List.tail_cons]
      rcases eq_or_eq_other side side' with rfl | rfl
      · rw [if_neg hlists, if_neg (side_ne_other side')]
        rfl
      · rw [if_pos rfl, if_pos rfl]
    have hin : t ∈ c.waiting side.other := by
      show t ∈ c.os.suspend_thread (c.list side.other)
      rw [hcons]
      exact List.mem_cons_self
    have hnodup := h.inv.suspend_nodup (c.list side.other)
    rw [hcons] at hnodup
    have hnot : t ∉ rest := (List.nodup_cons.mp hnodup).1
    have hsub : ∀ side', ∀ u ∈ c1.waiting side', u ∈ c.waiting side' := by
      intro side' u hu
      rw [hwait] at hu
      rcases eq_or_eq_other side side' with rfl | rfl
      · rwa [if_neg (side_ne_other side')] at hu
      · rw [if_pos rfl] at hu
        show u ∈ c.os.suspend_thread (c.list side.other)
        rw [hcons]
        exact List.mem_cons_of_mem t hu
    obtain ⟨htside, hterr⟩ := h.listed side.other t hin
    refine ⟨hw.inv, fun side' u hu => ?_, fun u hu hact => ?_, fun side' hne => ?_⟩
    · obtain ⟨h1, h2⟩ := h.listed side' u (hsub side' u hu)
      exact ⟨h1, (hw.kept u).error.trans h2⟩
    · have hut : u ≠ t := by
        rintro rfl
        have hact' : (os.threads u).thread_timer.activated = true := hact
        rw [hw.timer] at hact'
        cases hact'
      obtain ⟨side', hside'⟩ := h.timer u hu ((hw.kept u).timer hact)
      refine ⟨side', ?_⟩
      rw [hwait]
      rcases eq_or_eq_other side side' with rfl | rfl
      · rw [if_neg (side_ne_other side')]
        exact hside'
      · rw [if_pos rfl]
        have hside'' : u ∈ c.os.suspend_thread (c.list side.other) := hside'
        rw [hcons] at hside''
        exact (List.mem_cons.mp hside'').resolve_left hut
    · rcases eq_or_eq_other side side' with rfl | rfl
      · have hne' : c.waiting side' ≠ [] := by
          rw [hwait, if_neg (side_ne_other side')] at hne
          exact hne
        obtain ⟨resumed, hnd, hres, hle⟩ := h.enough side' hne'
        rw [if_pos rfl] at hle
        refine ⟨resumed, hnd, fun u hu => ?_, by simp only [reduceCtorEq, if_false]; omega⟩
        obtain ⟨h1, h2, h3⟩ := hres u hu
        exact ⟨h1, fun hu' => h2 (hsub side' u hu'), (hw.kept u).error.trans h3⟩
      · obtain ⟨resumed, hnd, hres, hle⟩ := h.enough side.other (List.ne_nil_of_mem hin)
        rw [if_neg (by simpa using side_ne_other side)] at hle
        have htnot : t ∉ resumed := fun ht => (hres t ht).2.1 hin
        refine ⟨t :: resumed, List.nodup_cons.mpr ⟨htnot, hnd⟩, fun u hu => ?_, ?_⟩
        · rcases List.mem_cons.mp hu with rfl | hu
          · refine ⟨htside, ?_, (hw.kept u).error.trans hterr⟩
            rw [hwait, if_pos rfl]
            exact hnot
          · obtain ⟨h1, h2, h3⟩ := hres u hu
            exact ⟨h1, fun hu' => h2 (hsub _ u hu'), (hw.kept u).error.trans h3⟩
        · rw [List.length_cons]
          omega

/-- A timeout takes a waiting thread off its list. -/
theorem MbWaits.timeout (h : MbWaits c none) (hs : c.timeout t = some c') : MbWaits c' none := by
  unfold MbSystem.timeout at hs
  by_cases hact : c.busy t = true ∧ (c.os.threads t).thread_timer.activated = true
  · rw [if_pos hact] at hs
    obtain ⟨os, hos, rfl⟩ := Option.map_eq_some_iff.mp hs
    have hto := timerExpires_timedOut h.inv hos
    have hmem : ∀ side u, u ∈ os.suspend_thread (c.list side) ↔ u ∈ c.waiting side ∧ u ≠ t := by
      intro side u
      rw [hto.suspend, List.mem_filter]
      simp [MbSystem.waiting]
    obtain ⟨tside, hin⟩ := h.timer t hact.1 hact.2
    refine ⟨hto.inv, fun side u hu => ?_, fun u hu hact' => ?_, fun side hne => ?_⟩
    · obtain ⟨hu, hut⟩ := (hmem side u).mp hu
      obtain ⟨h1, h2⟩ := h.listed side u hu
      exact ⟨h1, (hto.other u hut).error.trans h2⟩
    · have hut : u ≠ t := by
        rintro rfl
        have hact'' : (os.threads u).thread_timer.activated = true := hact'
        rw [hto.timer] at hact''
        cases hact''
      obtain ⟨side, hside⟩ := h.timer u hu ((hto.other u hut).timer hact')
      exact ⟨side, (hmem side u).mpr ⟨hside, hut⟩⟩
    · obtain ⟨u, hu⟩ := List.exists_mem_of_ne_nil _ hne
      obtain ⟨resumed, hnd, hres, hle⟩ := h.enough side (List.ne_nil_of_mem ((hmem side u).mp hu).1)
      refine ⟨resumed, hnd, fun v hv => ?_, hle⟩
      obtain ⟨h1, h2, h3⟩ := hres v hv
      -- the thread was waiting, so it was not a resumed one
      have hvt : v ≠ t := by
        rintro rfl
        have heq := Option.some.inj (h1.symm.trans (h.listed tside v hin).1)
        exact h2 (heq ▸ hin)
      exact ⟨h1, fun hv' => h2 ((hmem side v).mp hv').1, (hto.other v hvt).error.trans h3⟩
  · rw [if_neg hact] at hs
    cases hs

/-! ### Steps -/

/-- The invariant between steps. -/
structure MbInv (c : MbSystem) : Prop where
  data : MbData c
  waits : MbWaits c none

/-- What a step that ends with `outcome` does to the abstract queue. -/
def Ends (c : MbSystem) (outcome : Outcome) (ok : MbSystem → Prop) (c' : MbSystem) : Prop :=
  if outcome = .returned RT_EOK then ok c'
  else c'.mb = c.mb ∧ c'.queue = c.queue ∧ c'.accepted = c.accepted ∧ c'.received = c.received

theorem MbData.list_ne (h : MbData c) (side : Side) : c.list side ≠ c.list side.other := by
  cases side with
  | sender => exact h.lists.symm
  | receiver => exact h.lists

/-- The system after `t` has stopped using the mailbox. -/
abbrev without (c : MbSystem) (t : Tid) : MbSystem :=
  { c with pc := Function.update c.pc t .idle }

theorem afterSend_spec {value : BitVec 32} {timeout : Int} {r : Rtos × Mailbox × Outcome}
    (hd : MbData c) (hw : MbWaits (c.without t) (some .sender)) (hrun : Runs c.os t)
    (hr : SendEnds c.mb c.os t value r) :
    MbInv (c.afterSend (some t) value timeout r) ∧
      c.Ends r.2.2 (fun c' => c'.queue = c.queue ++ [⟨c.accepted.length, value⟩])
        (c.afterSend (some t) value timeout r) := by
  have hidle : (c.without t).pc t = .idle := Function.update_self ..
  have hbusy : (c.without t).busy t = false := by simp [busy]
  cases hr with
  | full hfull =>
    have hzero : (c.without t).ready .sender = 0 := by
      show c.mb.size - c.mb.entry = 0
      omega
    have h1 := (hw.nothing hzero).elsewhere (setError_elsewhere (t := t) (e := RT_EOK) hw.inv
      (by simp [hbusy]))
    exact ⟨⟨hd.congr rfl rfl rfl rfl, h1.congr rfl rfl rfl⟩, rfl, rfl, rfl, rfl⟩
  | waits hfull hwait =>
    have hzero : (c.without t).ready .sender = 0 := by
      show c.mb.size - c.mb.entry = 0
      omega
    have h1 := hw.begins (.sending value timeout c.tick) hidle hzero rfl
      (hd.list_ne .sender) (hwait hrun)
    refine ⟨⟨hd.congr rfl rfl rfl rfl, h1.congr rfl rfl ?_⟩, rfl, rfl, rfl, rfl⟩
    exact (Function.update_idem ..).symm
  | sent hroom hres =>
    have hle := hd.bound
    have h1 := hw.uses (c.mb.putBack value) (fun side => by cases side <;> rfl)
      (show c.mb.size - (c.mb.entry + 1) + 1 = c.mb.size - c.mb.entry by omega) rfl
      (hd.list_ne .sender) hres
    exact ⟨⟨hd.enqueue hroom, h1.congr rfl rfl rfl⟩, rfl⟩

theorem afterRecv_spec {timeout : Int} {r : Rtos × Mailbox × Outcome × Option (BitVec 32)}
    (hd : MbData c) (hw : MbWaits (c.without t) (some .receiver)) (hrun : Runs c.os t)
    (hr : RecvEnds c.mb c.os t r) :
    MbInv (c.afterRecv (some t) timeout r) ∧
      c.Ends r.2.2.1 (fun c' => ∃ mail, c.queue = mail :: c'.queue ∧
        c'.received = c.received ++ [mail]) (c.afterRecv (some t) timeout r) := by
  have hidle : (c.without t).pc t = .idle := Function.update_self ..
  have hbusy : (c.without t).busy t = false := by simp [busy]
  cases hr with
  | empty hempty =>
    have h1 := (hw.nothing hempty).elsewhere
      (setError_elsewhere (t := t) (e := -RT_ETIMEOUT) hw.inv (by simp [hbusy]))
    exact ⟨⟨hd.congr rfl rfl rfl rfl, h1.congr rfl rfl rfl⟩, rfl, rfl, rfl, rfl⟩
  | waits hempty hwait =>
    have h1 := hw.begins (.receiving timeout c.tick) hidle hempty rfl
      (hd.list_ne .receiver) (hwait hrun)
    refine ⟨⟨hd.congr rfl rfl rfl rfl, h1.congr rfl rfl ?_⟩, rfl, rfl, rfl, rfl⟩
    exact (Function.update_idem ..).symm
  | @received os hsome hres =>
    have hle := hd.bound
    have h1 := hw.uses c.mb.takeFront (fun side => by cases side <;> rfl)
      (show c.mb.entry - 1 + 1 = c.mb.entry by omega)
      (show c.mb.size - (c.mb.entry - 1) = c.mb.size - c.mb.entry + 1 by omega)
      (hd.list_ne .receiver) hres
    obtain ⟨mail, queue, hq, -, heq, hdata⟩ :=
      hd.dequeue os (Function.update c.pc t .idle) hsome
    have hafter : c.afterRecv (some t) timeout (os, c.mb.takeFront, .returned RT_EOK,
        some (c.mb.msg_pool c.mb.out_offset)) = _ := heq
    rw [hafter]
    exact ⟨⟨hdata, h1.congr rfl rfl rfl⟩, mail, hq, rfl⟩

theorem without_idle (h : c.pc t = .idle) : c.without t = c := by
  unfold without
  rw [← h, Function.update_eq_self]

theorem setPc_idle {caller : Option Tid} (h : ∀ t, caller = some t → c.pc t = .idle) :
    c.setPc caller .idle = c := by
  cases caller with
  | none => rfl
  | some t => exact without_idle (h t rfl)

/-- A thread that runs is in no list of the mailbox. -/
theorem MbInv.not_waiting (h : MbInv c) (hrun : Runs c.os t) (side : Side) : t ∉ c.waiting side :=
  hrun.not_waiting h.waits.inv _

theorem MbInv.refl_ends {err : Int} (h : MbInv c) (herr : err ≠ RT_EOK) {ok : MbSystem → Prop} :
    MbInv c ∧ c.Ends (.returned err) ok c := by
  refine ⟨h, ?_⟩
  rw [Ends, if_neg (by simpa using herr)]
  exact ⟨rfl, rfl, rfl, rfl⟩

/-- The caller of a send or a receive that begins is outside both. -/
theorem MayCall.idle {timeout : Int} {caller : Option Tid} (h : MayCall c.os c.busy timeout caller) :
    ∀ t, caller = some t → c.pc t = .idle := by
  rintro t rfl
  simpa [busy] using h.2

theorem MbInv.send {caller : Option Tid} {value : BitVec 32} {timeout : Int} (h : MbInv c)
    (hs : c.send caller value timeout = some c') : ∃ outcome,
      c.outcome (.send caller value timeout) = some outcome ∧ MbInv c' ∧
      c.Ends outcome (fun c' => c'.queue = c.queue ++ [⟨c.accepted.length, value⟩]) c' := by
  unfold MbSystem.send at hs
  by_cases hcall : MayCall c.os c.busy timeout caller
  · rw [if_pos hcall] at hs
    obtain ⟨r, hr, rfl⟩ := Option.map_eq_some_iff.mp hs
    refine ⟨r.2.2, by simp [MbSystem.outcome, hr], ?_⟩
    have hidle := MayCall.idle hcall
    unfold Mailbox.rt_mb_send_wait at hr
    by_cases hnow : c.mb.entry = c.mb.size ∧ timeout = 0
    · rw [if_pos hnow] at hr
      obtain rfl := Option.some.inj hr
      show MbInv (c.setPc caller .idle) ∧ c.Ends _ _ (c.setPc caller .idle)
      rw [setPc_idle hidle]
      exact h.refl_ends (by decide)
    · rw [if_neg hnow] at hr
      cases caller with
      | some t =>
        have hw := h.waits.leave .sender (h.not_waiting hcall.1) (Or.inr (hidle t rfl))
        exact afterSend_spec h.data hw hcall.1
          (sendLoop_ends h.waits.inv hcall.1.1 h.data.bound h.data.size hr)
      | none =>
        -- a handler sends only when there is room
        have htime : timeout = 0 := hcall
        have hroom : c.mb.entry ≠ c.mb.size := fun hfull => hnow ⟨hfull, htime⟩
        unfold Mailbox.sendLoop at hr
        rw [if_neg hroom] at hr
        obtain ⟨os, hres, rfl⟩ := put_ends h.waits.inv hroom h.data.bound h.data.size hr
        have hle := h.data.bound
        have h1 := (h.waits.weaken .sender).uses (c.mb.putBack value)
          (fun side => by cases side <;> rfl)
          (show c.mb.size - (c.mb.entry + 1) + 1 = c.mb.size - c.mb.entry by omega) rfl
          (h.data.list_ne .sender) hres
        exact ⟨⟨h.data.enqueue hroom, h1.congr rfl rfl rfl⟩, rfl⟩
  · rw [if_neg hcall] at hs
    cases hs

theorem MbInv.sendResumed (h : MbInv c) (hs : c.sendResumed t = some c') : ∃ outcome,
    c.outcome (.sendResumed t) = some outcome ∧ MbInv c' ∧
    c.Ends outcome (fun c' => ∃ value timeout tick_delta, c.pc t = .sending value timeout tick_delta ∧
      c'.queue = c.queue ++ [⟨c.accepted.length, value⟩]) c' := by
  unfold MbSystem.sendResumed at hs
  cases hpc : c.pc t with
  | idle => simp [hpc] at hs
  | receiving timeout tick_delta => simp [hpc] at hs
  | sending value timeout tick_delta =>
    simp only [hpc] at hs
    by_cases hrun : Runs c.os t
    · rw [if_pos hrun] at hs
      obtain ⟨r, hr, rfl⟩ := Option.map_eq_some_iff.mp hs
      refine ⟨r.2.2, by simp [MbSystem.outcome, hpc, hr], ?_⟩
      unfold Mailbox.sendResumed at hr
      by_cases herr : (c.os.threads t).error = RT_EOK
      · rw [if_neg (not_not.mpr herr)] at hr
        have hw := h.waits.leave .sender (h.not_waiting hrun) (Or.inl (by rw [hpc]; rfl))
        obtain ⟨hinv, hends⟩ := afterSend_spec h.data hw hrun
          (sendLoop_ends h.waits.inv hrun.1 h.data.bound h.data.size hr)
        refine ⟨hinv, ?_⟩
        unfold Ends at hends ⊢
        by_cases hok : r.2.2 = .returned RT_EOK
        · rw [if_pos hok] at hends ⊢
          exact ⟨value, timeout, tick_delta, rfl, hends⟩
        · rw [if_neg hok] at hends ⊢
          exact hends
      · rw [if_pos herr] at hr
        obtain rfl := Option.some.inj hr
        simp only [MbSystem.afterSend, if_neg herr]
        have hw := h.waits.leave_failed (h.not_waiting hrun) herr
        refine ⟨⟨h.data.congr rfl rfl rfl rfl, hw⟩, ?_⟩
        rw [Ends, if_neg (by simpa using herr)]
        exact ⟨rfl, rfl, rfl, rfl⟩
    · rw [if_neg hrun] at hs
      cases hs

theorem MbInv.urgent {value : BitVec 32} (h : MbInv c) (hs : c.urgent value = some c') :
    ∃ outcome, c.outcome (.urgent value) = some outcome ∧ MbInv c' ∧
      c.Ends outcome (fun c' => c'.queue = ⟨c.accepted.length, value⟩ :: c.queue) c' := by
  obtain ⟨⟨os, mb, outcome⟩, hr, hs⟩ := Option.bind_eq_some_iff.mp hs
  refine ⟨outcome, by simp [MbSystem.outcome, hr], ?_⟩
  unfold Mailbox.rt_mb_urgent at hr
  by_cases hfull : c.mb.entry = c.mb.size
  · rw [if_pos hfull] at hr
    cases hr
    obtain rfl := Option.some.inj hs
    exact h.refl_ends (by decide)
  · rw [if_neg hfull] at hr
    obtain ⟨os', hres, hr⟩ := Option.bind_eq_some_iff.mp hr
    cases hr
    obtain rfl := Option.some.inj hs
    have hle := h.data.bound
    have h1 := (h.waits.weaken .sender).uses (c.mb.putFront value)
      (fun side => by cases side <;> rfl)
      (show c.mb.size - (c.mb.entry + 1) + 1 = c.mb.size - c.mb.entry by omega) rfl
      (h.data.list_ne .sender) (resumeFirst_resumed h.waits.inv hres)
    exact ⟨⟨h.data.enqueueUrgent hfull, h1.congr rfl rfl rfl⟩, rfl⟩

theorem MbInv.recv {caller : Option Tid} {timeout : Int} (h : MbInv c)
    (hs : c.recv caller timeout = some c') : ∃ outcome,
      c.outcome (.recv caller timeout) = some outcome ∧ MbInv c' ∧
      c.Ends outcome (fun c' => ∃ mail, c.queue = mail :: c'.queue ∧
        c'.received = c.received ++ [mail]) c' := by
  unfold MbSystem.recv at hs
  by_cases hcall : MayCall c.os c.busy timeout caller
  · rw [if_pos hcall] at hs
    obtain ⟨r, hr, rfl⟩ := Option.map_eq_some_iff.mp hs
    refine ⟨r.2.2.1, by simp [MbSystem.outcome, hr], ?_⟩
    have hidle := MayCall.idle hcall
    unfold Mailbox.rt_mb_recv at hr
    by_cases hnow : c.mb.entry = 0 ∧ timeout = 0
    · rw [if_pos hnow] at hr
      obtain rfl := Option.some.inj hr
      show MbInv (c.setPc caller .idle) ∧ c.Ends _ _ (c.setPc caller .idle)
      rw [setPc_idle hidle]
      exact h.refl_ends (by decide)
    · rw [if_neg hnow] at hr
      cases caller with
      | some t =>
        have hw := h.waits.leave .receiver (h.not_waiting hcall.1) (Or.inr (hidle t rfl))
        exact afterRecv_spec h.data hw hcall.1 (recvLoop_ends h.waits.inv hcall.1.1 hr)
      | none =>
        -- a handler receives only when there is a mail
        have htime : timeout = 0 := hcall
        have hsome : c.mb.entry ≠ 0 := fun hempty => hnow ⟨hempty, htime⟩
        unfold Mailbox.recvLoop at hr
        rw [if_neg hsome] at hr
        obtain ⟨os, hres, rfl⟩ := get_ends h.waits.inv hsome hr
        have hle := h.data.bound
        have h1 := (h.waits.weaken .receiver).uses c.mb.takeFront
          (fun side => by cases side <;> rfl)
          (show c.mb.entry - 1 + 1 = c.mb.entry by omega)
          (show c.mb.size - (c.mb.entry - 1) = c.mb.size - c.mb.entry + 1 by omega)
          (h.data.list_ne .receiver) hres
        obtain ⟨mail, queue, hq, -, heq, hdata⟩ := h.data.dequeue os c.pc hsome
        have hafter : c.afterRecv none timeout (os, c.mb.takeFront, .returned RT_EOK,
            some (c.mb.msg_pool c.mb.out_offset)) = _ := heq
        rw [hafter]
        exact ⟨⟨hdata, h1.congr rfl rfl rfl⟩, mail, hq, rfl⟩
  · rw [if_neg hcall] at hs
    cases hs

theorem MbInv.recvResumed (h : MbInv c) (hs : c.recvResumed t = some c') : ∃ outcome,
    c.outcome (.recvResumed t) = some outcome ∧ MbInv c' ∧
    c.Ends outcome (fun c' => ∃ mail, c.queue = mail :: c'.queue ∧
      c'.received = c.received ++ [mail]) c' := by
  unfold MbSystem.recvResumed at hs
  cases hpc : c.pc t with
  | idle => simp [hpc] at hs
  | sending value timeout tick_delta => simp [hpc] at hs
  | receiving timeout tick_delta =>
    simp only [hpc] at hs
    by_cases hrun : Runs c.os t
    · rw [if_pos hrun] at hs
      obtain ⟨r, hr, rfl⟩ := Option.map_eq_some_iff.mp hs
      refine ⟨r.2.2.1, by simp [MbSystem.outcome, hpc, hr], ?_⟩
      unfold Mailbox.recvResumed at hr
      by_cases herr : (c.os.threads t).error = RT_EOK
      · rw [if_neg (not_not.mpr herr)] at hr
        have hw := h.waits.leave .receiver (h.not_waiting hrun) (Or.inl (by rw [hpc]; rfl))
        exact afterRecv_spec h.data hw hrun (recvLoop_ends h.waits.inv hrun.1 hr)
      · rw [if_pos herr] at hr
        obtain rfl := Option.some.inj hr
        have hw := h.waits.leave_failed (h.not_waiting hrun) herr
        refine ⟨⟨h.data.congr rfl rfl rfl rfl, hw⟩, ?_⟩
        rw [Ends, if_neg (by simpa using herr)]
        exact ⟨rfl, rfl, rfl, rfl⟩
    · rw [if_neg hrun] at hs
      cases hs

/-- A step that is not part of a send or a receive. -/
theorem refines_of_same {l : MbStep} (hout : c.outcome l = none) (hmb : c'.mb = c.mb)
    (hq : c'.queue = c.queue) (ha : c'.accepted = c.accepted) (hr : c'.received = c.received) :
    c.Refines l c' := by
  unfold Refines
  rw [if_neg (by simp [hout])]
  exact ⟨hmb, hq, ha, hr⟩

theorem MbInv.step {l : MbStep} (h : MbInv c) (hs : c.step l = some c') :
    MbInv c' ∧ c.Refines l c' := by
  cases l with
  | send caller value timeout =>
    obtain ⟨outcome, hout, hinv, hends⟩ := h.send hs
    refine ⟨hinv, ?_⟩
    simp only [Refines, hout, Option.some.injEq]
    exact hends
  | sendResumed t =>
    obtain ⟨outcome, hout, hinv, hends⟩ := h.sendResumed hs
    refine ⟨hinv, ?_⟩
    simp only [Refines, hout, Option.some.injEq]
    exact hends
  | urgent value =>
    obtain ⟨outcome, hout, hinv, hends⟩ := h.urgent hs
    refine ⟨hinv, ?_⟩
    simp only [Refines, hout, Option.some.injEq]
    exact hends
  | recv caller timeout =>
    obtain ⟨outcome, hout, hinv, hends⟩ := h.recv hs
    refine ⟨hinv, ?_⟩
    simp only [Refines, hout, Option.some.injEq]
    exact hends
  | recvResumed t =>
    obtain ⟨outcome, hout, hinv, hends⟩ := h.recvResumed hs
    refine ⟨hinv, ?_⟩
    simp only [Refines, hout, Option.some.injEq]
    exact hends
  | timeout t =>
    have hw := h.waits.timeout hs
    have hs : c.timeout t = some c' := hs
    unfold MbSystem.timeout at hs
    split at hs
    · obtain ⟨os, -, rfl⟩ := Option.map_eq_some_iff.mp hs
      exact ⟨⟨h.data.congr rfl rfl rfl rfl, hw⟩, refines_of_same rfl rfl rfl rfl rfl⟩
    · cases hs
  | tick =>
    obtain rfl := Option.some.inj hs
    exact ⟨⟨h.data.congr rfl rfl rfl rfl, h.waits.congr rfl rfl rfl⟩,
      refines_of_same rfl rfl rfl rfl rfl⟩
  | schedule =>
    obtain ⟨os, hos, rfl⟩ := Option.map_eq_some_iff.mp hs
    exact ⟨⟨h.data.congr rfl rfl rfl rfl, h.waits.elsewhere (rt_schedule_elsewhere h.waits.inv hos)⟩,
      refines_of_same rfl rfl rfl rfl rfl⟩
  | other os => cases hs

theorem reachable_mbInv (hr : mbMachine.Reachable c) : MbInv c := by
  apply hr.invariant
  · exact fun c h => ⟨h.mbData, h.mbWaits⟩
  · rintro c l c' - h (hs | ⟨os, -, rfl, he⟩)
    · exact (h.step hs).1
    · exact ⟨h.data.congr rfl rfl rfl rfl, h.waits.elsewhere he⟩

end MbSystem

theorem mailbox_refines {c : MbSystem} (hr : mbMachine.Reachable c) : MbContract c := by
  have h := reachable_mbInv hr
  have hbound := h.data.bound
  refine ⟨h.data.pool, h.data.entry, hbound, ⟨h.data.perm, ?_⟩, ?_, fun hnone => ?_⟩
  · rw [h.data.ids]
    exact List.nodup_range
  · rintro l c' (hs | ⟨os, rfl, rfl, -⟩)
    · exact (h.step hs).2
    · exact refines_of_same rfl rfl rfl rfl rfl
  · -- without resumed threads nothing is ready for the waiting ones
    have hzero : ∀ side, c.waiting side ≠ [] → c.ready side = 0 := by
      intro side hne
      obtain ⟨resumed, -, hres, hle⟩ := h.waits.enough side hne
      cases resumed with
      | nil => simpa using hle
      | cons t ts => exact absurd (hres t List.mem_cons_self) (hnone side t)
    refine ⟨hzero .receiver, fun hne => ?_⟩
    have hroom : c.mb.size - c.mb.entry = 0 := hzero .sender hne
    omega

/-- An empty mailbox of two mails, used by nobody. -/
def emptyMailbox (os : Rtos) : MbSystem :=
  { os := os
    mb :=
      { msg_pool := fun _ => 0, size := 2, entry := 0, in_offset := 0, out_offset := 0
        suspend_thread := 0, suspend_sender_thread := 1, flag := .fifo }
    tick := 0, pc := fun _ => .idle, queue := [], accepted := [], received := [] }

/-- A handler can send to it at once. -/
example : (startedThreads.bind fun os => (emptyMailbox os).step (.send none 7 0)).isSome := by
  decide +kernel

/-- Threads 1 and 2 wait, a handler sends a mail and then an urgent one, and thread 1 gets the urgent
one. -/
def waitAndReceive : List MbStep :=
  [.recv (some 1) (-1), .schedule, .recv (some 2) 10, .schedule, .send none 7 0, .urgent 8, .schedule,
    .recvResumed 1]

theorem mailbox_refines_run : ∃ os, startedThreads = some os ∧
    ∃ c, Machine.runs MbSystem.step (emptyMailbox os) waitAndReceive = some c ∧
      c.received = [⟨1, 8⟩] ∧ MbContract c := by
  have hrun : ∃ os, startedThreads = some os ∧
      ∃ c, Machine.runs MbSystem.step (emptyMailbox os) waitAndReceive = some c ∧
        c.received = [⟨1, 8⟩] ∧ os.suspend_thread 0 = [] ∧ os.suspend_thread 1 = [] := by
    decide +kernel
  obtain ⟨os, hos, c, hc, hreceived, hlist0, hlist1⟩ := hrun
  have hfresh : (emptyMailbox os).Fresh :=
    ⟨startedThreads_inv hos, Nat.le_of_ble_eq_true rfl, rfl, rfl, rfl, Nat.zero_ne_one,
      (fun side => by cases side <;> assumption), fun _ => rfl, rfl, rfl, rfl⟩
  refine ⟨os, hos, c, hc, hreceived, mailbox_refines ?_⟩
  exact (Machine.Reachable.start hfresh).runs (fun _ _ _ hs => Or.inl hs) hc

end Ab32Vg1.Kernel
