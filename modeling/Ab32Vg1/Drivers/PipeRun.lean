import Ab32Vg1.Drivers.Pipe

/-! What a pipe keeps over every run, and the reads that return 0 with bytes left. -/

namespace Ab32Vg1.Drivers

open ProofKit Kernel AccMode

/-! ### One turn of a loop -/

namespace PipeDevice

variable {pipe pipe' : PipeDevice}

/-- The ring buffer, when there is one, has its indices in its pool. -/
def Valid (pipe : PipeDevice) : Prop := ∀ fifo, pipe.fifo = some fifo → fifo.Valid

/-- The counts that a turn leaves as they are. -/
structure SameCounts (pipe pipe' : PipeDevice) : Prop where
  readers : pipe'.readers = pipe.readers
  writers : pipe'.writers = pipe.writers
  ref_count : pipe'.ref_count = pipe.ref_count
  fifo : pipe'.fifo = none ↔ pipe.fifo = none

theorem SameCounts.refl (pipe : PipeDevice) : SameCounts pipe pipe := ⟨rfl, rfl, rfl, Iff.rfl⟩

theorem content_of_fifo {fifo : RingBuffer} (h : pipe.fifo = some fifo) :
    pipe.content = fifo.content := by
  simp only [content, h]

theorem valid_of_fifo {fifo : RingBuffer} (h : pipe.fifo = some fifo) (hv : fifo.Valid) :
    pipe.Valid := by
  intro f hf
  rw [h] at hf
  exact Option.some.inj hf ▸ hv

/-- A turn of a read takes the oldest bytes, and returns 0 only for want of a writer. -/
theorem readTurn_spec {nonblock : Bool} {buf : Bytes} {count : Nat} {bytes : List UInt8}
    {ret : Option Int} (hv : pipe.Valid)
    (heq : pipe.readTurn nonblock buf count = some (pipe', bytes, ret)) :
    pipe'.Valid ∧ SameCounts pipe pipe' ∧ pipe.content = bytes ++ pipe'.content ∧
      (ret = some 0 → pipe.writers = 0) := by
  rw [readTurn] at heq
  by_cases hw : pipe.writers = 0
  · rw [if_pos hw] at heq
    cases heq
    exact ⟨hv, .refl pipe, rfl, fun _ => hw⟩
  · rw [if_neg hw] at heq
    obtain ⟨fifo, hfifo, heq⟩ := Option.bind_eq_some_iff.mp heq
    have hget := RingBuffer.get_fifo (hv fifo hfifo) buf (count % 2 ^ 16)
    generalize rt_ringbuffer_get fifo buf (count % 2 ^ 16) = got at hget heq
    obtain ⟨fifo', buf', len⟩ := got
    obtain ⟨hv', -, -, htake, hdrop⟩ := hget
    have hsame : (some fifo' = (none : Option RingBuffer)) ↔ pipe.fifo = none := by
      simp only [hfifo, reduceCtorEq]
    by_cases hlen : 0 < len
    · simp only [hlen, if_true] at heq
      cases heq
      refine ⟨valid_of_fifo rfl hv', ⟨rfl, rfl, rfl, hsame⟩, ?_, fun h0 => ?_⟩
      · rw [content_of_fifo hfifo, content_of_fifo rfl, htake, hdrop, List.take_append_drop]
      · have := Option.some.inj h0
        omega
    · have h0 : len = 0 := by omega
      subst h0
      rw [List.drop_zero] at hdrop
      have hc : pipe.content = fifo'.content := by rw [content_of_fifo hfifo, hdrop]
      simp only [hlen, if_false] at heq
      by_cases hn : nonblock = true
      · rw [if_pos hn] at heq
        cases heq
        exact ⟨valid_of_fifo rfl hv', ⟨rfl, rfl, rfl, hsame⟩, hc, fun h0 => (by cases h0)⟩
      · rw [if_neg hn] at heq
        cases heq
        exact ⟨valid_of_fifo rfl hv', ⟨rfl, rfl, rfl, hsame⟩, hc, fun h0 => (by cases h0)⟩

/-- A turn of a write appends the bytes that it takes, and fails with `EPIPE` only for want of a
reader. -/
theorem writeTurn_spec {nonblock wakeup wakeup' : Bool} {buf : Bytes} {count r : Nat}
    {bytes : List UInt8} {ret : Option Int} (hv : pipe.Valid)
    (heq : pipe.writeTurn nonblock buf count r wakeup = some (pipe', bytes, wakeup', ret)) :
    pipe'.Valid ∧ SameCounts pipe pipe' ∧ pipe'.content = pipe.content ++ bytes ∧
      (ret = some (- EPIPE) → pipe.readers = 0) := by
  rw [writeTurn] at heq
  by_cases hr : pipe.readers = 0
  · rw [if_pos hr] at heq
    cases heq
    exact ⟨hv, .refl pipe, (List.append_nil _).symm, fun _ => hr⟩
  · rw [if_neg hr] at heq
    obtain ⟨fifo, hfifo, heq⟩ := Option.bind_eq_some_iff.mp heq
    have hput := RingBuffer.put_fifo (hv fifo hfifo) (fun i => buf (r + i)) ((count - r) % 2 ^ 16)
    simp only at heq
    generalize rt_ringbuffer_put fifo (fun i => buf (r + i)) ((count - r) % 2 ^ 16) = put at hput heq
    obtain ⟨fifo', len⟩ := put
    obtain ⟨hv', -, -, hc⟩ := hput
    rw [← content_of_fifo hfifo] at hc
    have hsame : (some fifo' = (none : Option RingBuffer)) ↔ pipe.fifo = none := by
      simp only [hfifo, reduceCtorEq]
    have hne : ∀ n : Nat, (n : Int) ≠ - EPIPE := by
      intro n h
      rw [EPIPE] at h
      omega
    by_cases hdone : r + len = count
    · rw [if_pos hdone] at heq
      cases heq
      exact ⟨valid_of_fifo rfl hv', ⟨rfl, rfl, rfl, hsame⟩, hc,
        fun h => absurd (Option.some.inj h) (hne _)⟩
    · rw [if_neg hdone] at heq
      by_cases hn : nonblock = true
      · rw [if_pos hn] at heq
        cases heq
        refine ⟨valid_of_fifo rfl hv', ⟨rfl, rfl, rfl, hsame⟩, hc, fun h => ?_⟩
        have h := Option.some.inj h
        split at h
        · cases h
        · exact absurd h (hne _)
      · rw [if_neg hn] at heq
        cases heq
        exact ⟨valid_of_fifo rfl hv', ⟨rfl, rfl, rfl, hsame⟩, hc, fun h => (by cases h)⟩

end PipeDevice

/-! ### The invariant -/

namespace PipeSystem

variable {c c' : PipeSystem}

/-- The counts are those of the open descriptors, a closed pipe has no ring buffer, and what writes
put in is what reads got and what is left. -/
structure Inv (c : PipeSystem) : Prop where
  valid : c.pipe.Valid
  readers : c.pipe.readers = c.fds.countP fun fd => fd.acc_mode.reads
  writers : c.pipe.writers = c.fds.countP fun fd => fd.acc_mode.writes
  ref_count : c.pipe.ref_count = c.fds.length
  few : c.fds.length ≤ 255
  closed : c.fds = [] → c.pipe.fifo = none
  in_order : c.accepted = c.returned ++ c.pipe.content

/-- The devices that the invariant cannot tell apart. -/
structure SameFifo (pipe pipe' : PipeDevice) : Prop where
  readers : pipe'.readers = pipe.readers
  writers : pipe'.writers = pipe.writers
  ref_count : pipe'.ref_count = pipe.ref_count
  fifo : pipe'.fifo = pipe.fifo

theorem Inv.congr (h : c.Inv) (hpipe : SameFifo c.pipe c'.pipe) (hfds : c'.fds = c.fds)
    (hacc : c'.accepted = c.accepted) (hret : c'.returned = c.returned) : c'.Inv := by
  have hc : c'.pipe.content = c.pipe.content := by
    rw [PipeDevice.content, PipeDevice.content, hpipe.fifo]
  refine ⟨?_, ?_, ?_, ?_, ?_, ?_, ?_⟩
  · intro fifo hfifo
    exact h.valid fifo (hpipe.fifo ▸ hfifo)
  · rw [hpipe.readers, hfds, h.readers]
  · rw [hpipe.writers, hfds, h.writers]
  · rw [hpipe.ref_count, hfds, h.ref_count]
  · rw [hfds]
    exact h.few
  · rw [hfds, hpipe.fifo]
    exact h.closed
  · rw [hacc, hret, hc, h.in_order]

theorem mapQueue_sameFifo (c : PipeSystem) (op : PipeOp) (own : Bool) (f : WaitQueue → WaitQueue) :
    SameFifo c.pipe (c.mapQueue op own f).pipe ∧ (c.mapQueue op own f).fds = c.fds ∧
      (c.mapQueue op own f).accepted = c.accepted ∧
      (c.mapQueue op own f).returned = c.returned := by
  cases op <;> cases own <;> exact ⟨⟨rfl, rfl, rfl, rfl⟩, rfl, rfl, rfl⟩

/-- Waking a queue, waiting in one and going on leave the bytes and the counts. -/
theorem Inv.mapQueue (h : c.Inv) (op : PipeOp) (own : Bool) (f : WaitQueue → WaitQueue) (t : Tid)
    (pc : Option (PipeOp × PipePhase)) : ((c.mapQueue op own f).setPc t pc).Inv := by
  obtain ⟨hpipe, hfds, hacc, hret⟩ := mapQueue_sameFifo c op own f
  exact h.congr hpipe hfds hacc hret

theorem Inv.setPc (h : c.Inv) (t : Tid) (pc : Option (PipeOp × PipePhase)) : (c.setPc t pc).Inv :=
  h.congr ⟨rfl, rfl, rfl, rfl⟩ rfl rfl rfl

theorem Inv.empty_of_closed (h : c.Inv) (hfds : c.fds = []) : c.pipe.content = [] := by
  simp only [PipeDevice.content, h.closed hfds]

theorem Fresh.inv (h : c.Fresh) : c.Inv := by
  obtain ⟨⟨is_named, bufsz, -, hpipe⟩, hfds, -, hacc, hret⟩ := h
  have hfifo : c.pipe.fifo = none := by rw [hpipe]; rfl
  refine ⟨?_, ?_, ?_, ?_, ?_, fun _ => hfifo, ?_⟩
  · intro fifo hf
    rw [hfifo] at hf
    cases hf
  · rw [hpipe, hfds]
    rfl
  · rw [hpipe, hfds]
    rfl
  · rw [hpipe, hfds]
    rfl
  · rw [hfds]
    exact Nat.zero_le _
  · simp only [hacc, hret, PipeDevice.content, hfifo, List.append_nil]

/-! ### Opening and closing -/

/-- The ring buffer that an open leaves: a new one, or the one there was. -/
theorem create_valid {size : Nat} {pool : Option Bytes} {fifo : Option RingBuffer}
    (h : rt_ringbuffer_create size pool = some fifo) :
    ∀ f, fifo = some f → f.Valid ∧ f.content = [] := by
  simp only [rt_ringbuffer_create] at h
  obtain ⟨-, h⟩ := RT_ASSERT_bind_eq_some.mp h
  cases pool with
  | none =>
    cases h
    intro f hf
    cases hf
  | some pool =>
    obtain ⟨hsize, h⟩ := RT_ASSERT_bind_eq_some.mp h
    cases h
    intro f hf
    cases hf
    refine ⟨rt_ringbuffer_init_valid (by omega) hsize.2, ?_⟩
    rw [RingBuffer.content_same rfl]
    exact Bytes.range_zero ..

theorem Inv.open (h : c.Inv) {fd : PipeFd} {pool : Option Bytes} {pipe : PipeDevice} {rc : Int}
    (hlt : c.fds.length < 255) (heq : c.pipe.pipe_fops_open fd.acc_mode pool = some (pipe, rc)) :
    ({ c with pipe := pipe, fds := if rc = 0 then fd :: c.fds else c.fds } : PipeSystem).Inv := by
  rw [PipeDevice.pipe_fops_open] at heq
  obtain ⟨fifo, hfifo, heq⟩ := Option.bind_eq_some_iff.mp heq
  rw [PipeDevice.openFifo] at hfifo
  -- the first descriptor gets a new buffer, and until then there is none
  have hv : ∀ f, fifo = some f → f.Valid ∧ f.content = c.pipe.content := by
    by_cases h0 : c.pipe.ref_count = 0
    · rw [if_pos h0] at hfifo
      intro f hf
      have hfds : c.fds = [] := List.length_eq_zero_iff.mp (h.ref_count ▸ h0)
      rw [h.empty_of_closed hfds]
      exact create_valid hfifo f hf
    · rw [if_neg h0] at hfifo
      cases hfifo
      intro f hf
      exact ⟨h.valid f hf, (PipeDevice.content_of_fifo hf).symm⟩
  by_cases hnone : c.pipe.ref_count = 0 ∧ fifo.isNone
  · rw [if_pos hnone] at heq
    cases heq
    obtain ⟨h0, hnone⟩ := hnone
    have hfds : c.fds = [] := List.length_eq_zero_iff.mp (h.ref_count ▸ h0)
    have hold := h.closed hfds
    cases Option.isNone_iff_eq_none.mp hnone
    exact h.congr ⟨rfl, rfl, rfl, hold.symm⟩ rfl rfl rfl
  · rw [if_neg hnone] at heq
    cases heq
    have hcnt : ∀ p : PipeFd → Bool, c.fds.countP p ≤ c.fds.length := fun p => List.countP_le_length
    have hcr := hcnt fun fd => fd.acc_mode.reads
    have hcw := hcnt fun fd => fd.acc_mode.writes
    refine ⟨fun f hf => (hv f hf).1, ?_, ?_, ?_, ?_, fun hnil => ?_, ?_⟩
    · show (if fd.acc_mode.reads then (c.pipe.readers + 1) % 256 else c.pipe.readers) =
        (fd :: c.fds).countP fun fd => fd.acc_mode.reads
      rw [List.countP_cons, h.readers]
      split <;> omega
    · show (if fd.acc_mode.writes then (c.pipe.writers + 1) % 256 else c.pipe.writers) =
        (fd :: c.fds).countP fun fd => fd.acc_mode.writes
      rw [List.countP_cons, h.writers]
      split <;> omega
    · show (c.pipe.ref_count + 1) % 256 = (fd :: c.fds).length
      rw [List.length_cons, h.ref_count]
      omega
    · show (fd :: c.fds).length ≤ 255
      rw [List.length_cons]
      omega
    · cases hnil
    · show c.accepted = c.returned ++ _
      rw [h.in_order]
      congr 1
      cases fifo with
      | some f => exact (hv f rfl).2.symm
      | none =>
        -- a pipe without a buffer has no descriptor yet
        by_cases h0 : c.pipe.ref_count = 0
        · exact absurd ⟨h0, rfl⟩ hnone
        · rw [if_neg h0] at hfifo
          simp only [PipeDevice.content, Option.some.inj hfifo]

theorem Inv.close (h : c.Inv) {fd : PipeFd} {registered : Bool} (hmem : fd ∈ c.fds)
    (hlast : c.fds.length = 1 → c.pipe.content = []) :
    ({ c with pipe := c.pipe.pipe_fops_close fd.acc_mode, fds := c.fds.erase fd
              registered := registered } : PipeSystem).Inv := by
  have hpos : 0 < c.fds.length := List.length_pos_of_mem hmem
  have hlen : (c.fds.erase fd).length = c.fds.length - 1 := List.length_erase_of_mem hmem
  have hcount : ∀ p : PipeFd → Bool,
      (c.fds.erase fd).countP p = c.fds.countP p - if p fd then 1 else 0 := by
    intro p
    have hperm := (List.perm_cons_erase hmem).countP_eq p
    rw [List.countP_cons] at hperm
    omega
  have hmore : ∀ p : PipeFd → Bool, p fd = true → 0 < c.fds.countP p := fun p hp =>
    List.countP_pos_iff.mpr ⟨fd, hmem, hp⟩
  have hle : ∀ p : PipeFd → Bool, c.fds.countP p ≤ c.fds.length := fun p => List.countP_le_length
  have hfew := h.few
  have hfifo : (c.pipe.pipe_fops_close fd.acc_mode).fifo =
      if c.pipe.ref_count = 1 then none else c.pipe.fifo := rfl
  refine ⟨?_, ?_, ?_, ?_, ?_, ?_, ?_⟩
  · intro f hf
    rw [hfifo] at hf
    split at hf
    · cases hf
    · exact h.valid f hf
  · show (if fd.acc_mode.reads then (c.pipe.readers + 255) % 256 else c.pipe.readers) =
      (c.fds.erase fd).countP fun fd => fd.acc_mode.reads
    have hp := hmore fun fd => fd.acc_mode.reads
    have hl := hle fun fd => fd.acc_mode.reads
    rw [hcount, h.readers]
    split
    · next hr =>
      have := hp hr
      omega
    · rfl
  · show (if fd.acc_mode.writes then (c.pipe.writers + 255) % 256 else c.pipe.writers) =
      (c.fds.erase fd).countP fun fd => fd.acc_mode.writes
    have hp := hmore fun fd => fd.acc_mode.writes
    have hl := hle fun fd => fd.acc_mode.writes
    rw [hcount, h.writers]
    split
    · next hr =>
      have := hp hr
      omega
    · rfl
  · show (c.pipe.ref_count + 255) % 256 = (c.fds.erase fd).length
    rw [h.ref_count, hlen]
    omega
  · show (c.fds.erase fd).length ≤ 255
    omega
  · intro hnil
    have h1 : c.pipe.ref_count = 1 := by
      have : (c.fds.erase fd).length = 0 := by rw [show c.fds.erase fd = [] from hnil]; rfl
      rw [h.ref_count]
      omega
    show (c.pipe.pipe_fops_close fd.acc_mode).fifo = none
    rw [hfifo, if_pos h1]
  · show c.accepted = c.returned ++ (c.pipe.pipe_fops_close fd.acc_mode).content
    rw [h.in_order]
    congr 1
    simp only [PipeDevice.content, hfifo]
    by_cases h1 : c.pipe.ref_count = 1
    · rw [if_pos h1]
      exact hlast (h.ref_count ▸ h1)
    · rw [if_neg h1]

/-! ### Reading and writing -/

/-- The counts and the buffer of a device that a turn of a loop left. -/
theorem Inv.turn (h : c.Inv) {pipe : PipeDevice} {acc ret : List UInt8} (hv : pipe.Valid)
    (hs : c.pipe.SameCounts pipe) (hord : acc = ret ++ pipe.content) :
    ({ c with pipe := pipe, accepted := acc, returned := ret } : PipeSystem).Inv :=
  ⟨hv, hs.readers.trans h.readers, hs.writers.trans h.writers, hs.ref_count.trans h.ref_count, h.few,
    fun hnil => hs.fifo.mpr (h.closed hnil), hord⟩

/-- What a step keeps, and when it returns 0 or `-EPIPE`. -/
structure Kept (c : PipeSystem) (l : PipeStep) (c' : PipeSystem) (o : Option PipeResult) : Prop where
  inv : c.Sound l → c'.Inv
  eof : o = some (.read 0) → c.Reads l = true ∧ c.pipe.writers = 0
  epipe : o = some (.write (- EPIPE)) → c.pipe.readers = 0

/-- A step that returns nothing. -/
theorem Kept.quiet {l : PipeStep} (h : c.Sound l → c'.Inv) : Kept c l c' none :=
  ⟨h, fun ho => (by cases ho), fun ho => (by cases ho)⟩

theorem Inv.readLocked (h : c.Inv) {t : Tid} {fd : PipeFd} {buf : Bytes} {count : Nat}
    {o : Option PipeResult} (hpc : c.pc t = some (.read fd buf count, .lock))
    (heq : c.readLocked t fd buf count = some (c', o)) : Kept c (.locked t) c' o := by
  obtain ⟨⟨pipe, bytes, ret⟩, hturn, heq⟩ := Option.map_eq_some_iff.mp heq
  obtain ⟨hv, hs, hc, h0⟩ := PipeDevice.readTurn_spec h.valid hturn
  have hord : c.accepted = (c.returned ++ bytes) ++ pipe.content := by
    rw [h.in_order, hc, List.append_assoc]
  have hinv := h.turn hv hs hord
  cases ret with
  | some ret =>
    cases heq
    refine ⟨fun _ => hinv.setPc t none, fun ho => ⟨?_, h0 ?_⟩, fun ho => (by cases ho)⟩
    · simp only [Reads, hpc]
    · rw [PipeResult.read.inj (Option.some.inj ho)]
  | none =>
    cases heq
    exact .quiet fun _ => hinv.setPc t _

theorem Inv.writeLocked (h : c.Inv) {t : Tid} {fd : PipeFd} {buf : Bytes} {count ret : Nat}
    {wakeup : Bool} {o : Option PipeResult}
    (heq : c.writeLocked t fd buf count ret wakeup = some (c', o)) : Kept c (.locked t) c' o := by
  obtain ⟨⟨pipe, bytes, wakeup', result⟩, hturn, heq⟩ := Option.map_eq_some_iff.mp heq
  obtain ⟨hv, hs, hc, h0⟩ := PipeDevice.writeTurn_spec h.valid hturn
  have hord : c.accepted ++ bytes = c.returned ++ pipe.content := by
    rw [h.in_order, hc, List.append_assoc]
  have hinv := h.turn hv hs hord
  cases result with
  | some result =>
    cases heq
    refine ⟨fun _ => hinv.setPc t _, fun ho => (by cases ho), fun ho => h0 ?_⟩
    rw [PipeResult.write.inj (Option.some.inj ho)]
  | none =>
    cases heq
    exact .quiet fun _ => hinv.setPc t _

/-- One step keeps the invariant. -/
theorem Inv.next (h : c.Inv) {l : PipeStep} {o : Option PipeResult}
    (hs : c.next l = some (c', o)) : Kept c l c' o := by
  cases l with
  | «open» fd pool =>
    simp only [PipeSystem.next] at hs
    split at hs
    · obtain ⟨⟨pipe, rc⟩, hopen, heq⟩ := Option.map_eq_some_iff.mp hs
      cases heq
      exact .quiet fun hl => h.open (hl.1 rfl) hopen
    · cases hs
  | close fd =>
    simp only [PipeSystem.next] at hs
    split at hs
    · next hmem =>
      cases hs
      exact .quiet fun hl => h.close hmem (hl.2.1 rfl)
    · cases hs
  | read t fd buf count =>
    simp only [PipeSystem.next] at hs
    split at hs
    · split at hs
      · next hw =>
        cases hs
        exact ⟨fun _ => h, fun _ => ⟨rfl, hw⟩, fun ho => (by cases ho)⟩
      · cases hs
        exact .quiet fun _ => h.setPc t _
    · cases hs
  | write t fd buf count =>
    simp only [PipeSystem.next] at hs
    split at hs
    · split at hs
      · next hr =>
        cases hs
        exact ⟨fun _ => h, fun ho => (by cases ho), fun _ => hr⟩
      · split at hs
        · cases hs
          exact ⟨fun _ => h, fun ho => (by cases ho), fun ho => (by cases ho)⟩
        · cases hs
          exact .quiet fun _ => h.setPc t _
    · cases hs
  | locked t =>
    simp only [PipeSystem.next] at hs
    split at hs
    · next hpc => exact h.readLocked hpc hs
    · exact h.writeLocked hs
    · cases hs
  | wake t =>
    simp only [PipeSystem.next] at hs
    split at hs
    · cases hs
      exact .quiet fun _ => h.mapQueue ..
    · cases hs
      exact .quiet fun _ => h.mapQueue ..
    · cases hs
  | wait t =>
    simp only [PipeSystem.next] at hs
    split at hs
    · cases hs
      exact .quiet fun _ => h.mapQueue ..
    · cases hs
  | woken t =>
    simp only [PipeSystem.next] at hs
    split at hs
    · split at hs
      · cases hs
      · cases hs
        exact .quiet fun _ => h.mapQueue ..
    · cases hs

theorem reachable_inv (hr : (pipeMachine.restrict Sound).Reachable c) : c.Inv := by
  apply hr.invariant
  · exact fun c h => Fresh.inv h
  · rintro c l c' - h ⟨hl, hs⟩
    obtain ⟨⟨c1, o⟩, hnext, rfl⟩ := Option.map_eq_some_iff.mp hs
    exact (h.next hnext).inv hl

/-- With no writer counted no descriptor can write, and likewise for readers. -/
theorem none_of_countP {l : List PipeFd} {p : PipeFd → Bool} (h : 0 = l.countP p) :
    ∀ fd ∈ l, p fd = false := by
  intro fd hmem
  have := List.countP_eq_zero.mp h.symm fd hmem
  simpa using this

end PipeSystem

open PipeSystem

theorem pipe_delivers {c : PipeSystem} (hr : (pipeMachine.restrict Sound).Reachable c) :
    PipeContract c := by
  have h := reachable_inv hr
  refine ⟨h.in_order, fun l hl hres => ?_, fun l hres => ?_⟩
  · obtain ⟨⟨c1, o⟩, hnext, ho⟩ := Option.bind_eq_some_iff.mp hres
    obtain ⟨hread, hw⟩ := (h.next hnext).eof ho
    refine ⟨none_of_countP (hw ▸ h.writers), ?_⟩
    rw [h.in_order, hl.2.2 hread hw, List.append_nil]
  · obtain ⟨⟨c1, o⟩, hnext, ho⟩ := Option.bind_eq_some_iff.mp hres
    exact none_of_countP ((h.next hnext).epipe ho ▸ h.readers)

/-! ### Runs -/

/-- A pipe that nobody has opened. -/
def newPipe (is_named : Bool) (bufsz : Nat) : PipeSystem :=
  { pipe := PipeDevice.rt_pipe_create is_named bufsz
    registered := true, fds := [], pc := fun _ => none, accepted := [], returned := [] }

theorem newPipe_fresh {is_named : Bool} {bufsz : Nat} (h : bufsz < 0xFFFF) :
    (newPipe is_named bufsz).Fresh :=
  ⟨⟨is_named, bufsz, h, rfl⟩, rfl, fun _ => rfl, rfl, rfl⟩

/-- The steps that meet the condition. -/
def pipeStepSound (c : PipeSystem) (l : PipeStep) : Option PipeSystem :=
  if c.Sound l then c.step l else none

theorem pipeStepSound_step {c c' : PipeSystem} {l : PipeStep} (h : pipeStepSound c l = some c') :
    (pipeMachine.restrict Sound).step c l c' := by
  rw [pipeStepSound] at h
  split at h
  · next hl => exact ⟨hl, h⟩
  · cases h

def readEnd : PipeFd := ⟨3, .O_RDONLY, false⟩

def writeEnd : PipeFd := ⟨4, .O_WRONLY, false⟩

def letters : Bytes := fun i => UInt8.ofNat (65 + i)

/-- Thread 1 waits for bytes, thread 2 writes ten of them through a buffer of eight, and the writer
closes once all are read. -/
def waitForBytes : List PipeStep :=
  [.open readEnd (some fun _ => 0), .open writeEnd none, .read 1 readEnd (fun _ => 0) 8, .locked 1,
    .wake 1, .wait 1, .write 2 writeEnd letters 10, .locked 2, .wake 2, .wait 2, .locked 2, .wake 2,
    .woken 1, .locked 1, .wait 2, .locked 2, .wake 2, .read 1 readEnd (fun _ => 0) 8, .locked 1,
    .close writeEnd]

theorem pipe_delivers_run : ∃ c, Machine.runs pipeStepSound (newPipe false 8) waitForBytes = some c ∧
    c.returned.length = 10 ∧ PipeContract c := by
  have hrun : ∃ c, Machine.runs pipeStepSound (newPipe false 8) waitForBytes = some c ∧
      c.returned.length = 10 := by
    decide +kernel
  obtain ⟨c, hc, hlen⟩ := hrun
  have hfresh : (pipeMachine.restrict Sound).start (newPipe false 8) := newPipe_fresh (by decide)
  exact ⟨c, hc, hlen,
    pipe_delivers ((Machine.Reachable.start hfresh).runs (fun _ _ _ => pipeStepSound_step) hc)⟩

/-- The writer puts four bytes in and closes before they are read. -/
def writeAndClose : List PipeStep :=
  [.open readEnd (some fun _ => 0), .open writeEnd none, .write 2 writeEnd letters 4, .locked 2,
    .wake 2, .close writeEnd]

/-- The end of the file comes before the four bytes that were accepted. -/
theorem pipe_loses_bytes : ∃ c, pipeMachine.Reachable c ∧ c.accepted = letters.range 0 4 ∧
    c.returned = [] ∧ c.pipe.content = letters.range 0 4 ∧
    c.result (.read 1 readEnd (fun _ => 0) 4) = some (.read 0) := by
  have hrun : ∃ c, Machine.runs PipeSystem.step (newPipe false 8) writeAndClose = some c ∧
      c.accepted = letters.range 0 4 ∧ c.returned = [] ∧ c.pipe.content = letters.range 0 4 ∧
      c.result (.read 1 readEnd (fun _ => 0) 4) = some (.read 0) := by
    decide +kernel
  obtain ⟨c, hc, hacc, hret, hleft, hres⟩ := hrun
  have hfresh : pipeMachine.start (newPipe false 8) := newPipe_fresh (by decide)
  exact ⟨c, (Machine.Reachable.start hfresh).runs (fun _ _ _ hs => hs) hc, hacc, hret, hleft, hres⟩

end Ab32Vg1.Drivers
