import Ab32Vg1.Drivers.AudioRun

/-! A call of `_audio_dev_write` while the other threads run.  The call waits for a free block of the
memory pool and for room in the queue; the audio thread gives both back. -/

namespace Ab32Vg1.Drivers

open Kernel ProofKit

/-- A call of `_audio_dev_write`, the bytes that it has pushed, and the value that it returned. -/
structure AudioWrite where
  stream : Playback
  handed : List UInt8
  result : Option Nat

namespace AudioWrite

/-- A call on a replay stream that is open for writing. -/
def call (r : AudioReplay) (buffer : Bytes) (size : Nat) : AudioWrite :=
  ⟨⟨r, .writing buffer size 0, [], []⟩, [], none⟩

/-- The next step of the call: a turn of the loop, the push of a full block, or the return of
`index`. -/
def app (w : AudioWrite) : Option AudioWrite :=
  match w.stream.pc with
  | .writing _ size index =>
    w.stream.runApp.map fun c =>
      { w with stream := c, result := if index < size then none else some index }
  | .pushing _ _ _ =>
    w.stream.runApp.map fun c =>
      { w with
        stream := c
        handed := w.handed ++ w.stream.replay.write_data.range 0 RT_AUDIO_REPLAY_MP_BLOCK_SIZE }
  | _ => none

/-- The other threads leave the block that is being filled alone. -/
def others (w : AudioWrite) (r : AudioReplay) : AudioWrite :=
  { w with
    stream := { w.stream with
      replay := { r with
        write_data := w.stream.replay.write_data, write_index := w.stream.replay.write_index } } }

/-- A run with `n` steps of the call, and steps of other threads between them. -/
inductive Turns : Nat → AudioWrite → AudioWrite → Prop
  | start (w : AudioWrite) : Turns 0 w w
  | app {n : Nat} {w w' w'' : AudioWrite} (h : Turns n w w') (hs : w'.app = some w'') :
      Turns (n + 1) w w''
  | others {n : Nat} {w w' : AudioWrite} (h : Turns n w w') (r : AudioReplay) :
      Turns n w (w'.others r)

/-- The bytes of the buffer that the call is through with. -/
def taken (w : AudioWrite) (size : Nat) : Nat :=
  match w.stream.pc with
  | .writing _ _ index | .pushing _ _ index => index
  | _ => size

/-- The next copy stays inside the block and inside the buffer. -/
def CopyInside (w : AudioWrite) : Prop :=
  match w.stream.pc with
  | .writing _ size index =>
    index < size → w.stream.replay.write_index + w.stream.replay.writeCount size index ≤
        RT_AUDIO_REPLAY_MP_BLOCK_SIZE ∧
      index + w.stream.replay.writeCount size index ≤ size
  | _ => True

end AudioWrite

/-- The call hands on the bytes of the buffer behind those that were in the block, copies inside the
block, takes a bounded number of turns, waits only for a block or for room in the queue, and returns
the size. -/
structure WriteTakes (r : AudioReplay) (buffer : Bytes) (size : Nat) : Prop where
  bytes : ∀ n w, AudioWrite.Turns n (.call r buffer size) w →
    w.handed ++ w.stream.pending =
      r.write_data.range 0 r.write_index ++ buffer.range 0 (w.taken size)
  write_index : ∀ n w, AudioWrite.Turns n (.call r buffer size) w →
    w.stream.replay.write_index < RT_AUDIO_REPLAY_MP_BLOCK_SIZE
  inside : ∀ n w, AudioWrite.Turns n (.call r buffer size) w → w.CopyInside
  ends : ∃ N, ∀ n w, AudioWrite.Turns n (.call r buffer size) w → n ≤ N
  waits : ∀ n w, AudioWrite.Turns n (.call r buffer size) w → w.result = none →
    0 < w.stream.replay.mp → w.stream.replay.queue.length < CFG_AUDIO_REPLAY_QUEUE_COUNT →
      ∃ w', w.app = some w'
  result : ∀ n w k, AudioWrite.Turns n (.call r buffer size) w → w.result = some k →
    k = size ∧ w.taken size = size

namespace AudioWrite

variable {w w' : AudioWrite} {r : AudioReplay} {buffer : Bytes} {size index n : Nat}

/-! ### Steps -/

theorem app_writing (hpc : w.stream.pc = .writing buffer size index) :
    w.app = (w.stream.writeTurn buffer size index).map fun c =>
      { w with stream := c, result := if index < size then none else some index } := by
  simp only [app, Playback.runApp, hpc]

theorem app_pushing (hpc : w.stream.pc = .pushing buffer size index) :
    w.app = (w.stream.replay.push RT_AUDIO_REPLAY_MP_BLOCK_SIZE).map fun r =>
      { w with
        stream := { w.stream with replay := r, pc := .writing buffer size index }
        handed := w.handed ++ w.stream.replay.write_data.range 0 RT_AUDIO_REPLAY_MP_BLOCK_SIZE } := by
  simp only [app, Playback.runApp, hpc, Option.map_map, Function.comp_def]

theorem push_cases {r' : AudioReplay} (h : r.push n = some r') :
    r' = { r with queue := r.queue ++ [⟨r.write_data, n⟩] } := by
  unfold AudioReplay.push at h
  split at h
  · exact (Option.some.inj h).symm
  · cases h

/-- A block is there when one is needed, and room in the queue, so the call goes on. -/
theorem app_goes (hpc : w.stream.pc = .writing buffer size index ∨
      w.stream.pc = .pushing buffer size index)
    (hmp : 0 < w.stream.replay.mp)
    (hqueue : w.stream.replay.queue.length < CFG_AUDIO_REPLAY_QUEUE_COUNT) :
    ∃ w', w.app = some w' := by
  rcases hpc with hpc | hpc
  · have halloc : ∃ r, w.stream.replay.allocBlock = some r := by
      unfold AudioReplay.allocBlock
      rw [if_pos hmp]
      split <;> exact ⟨_, rfl⟩
    obtain ⟨r, hr⟩ := halloc
    rw [app_writing hpc, Playback.writeTurn, hr]
    split <;> exact ⟨_, rfl⟩
  · rw [app_pushing hpc, AudioReplay.push, if_pos hqueue]
    exact ⟨_, rfl⟩

/-! ### Sizes of 16 bits -/

/-- The turns that the call has yet to take, at most. -/
def left (w : AudioWrite) (size : Nat) : Nat :=
  match w.stream.pc with
  | .writing _ _ index => 2 * (size - index) + 1
  | .pushing _ _ index => 2 * (size - index) + 2
  | _ => 0

/-- Where the call is. -/
inductive At (w : AudioWrite) (buffer : Bytes) (size : Nat) : Prop
  | writing (index : Nat) (hpc : w.stream.pc = .writing buffer size index) (hle : index ≤ size)
      (hresult : w.result = none)
  | pushing (index : Nat) (hpc : w.stream.pc = .pushing buffer size index) (hle : index ≤ size)
      (hresult : w.result = none) (hfull : w.stream.replay.write_index = 0)
  | done (hpc : w.stream.pc = .idle) (hresult : w.result = some size)

/-- After `n` turns of a call that began on `r`. -/
structure Taking (r : AudioReplay) (buffer : Bytes) (size n : Nat) (w : AudioWrite) : Prop where
  pc : w.At buffer size
  write_index : w.stream.replay.write_index < RT_AUDIO_REPLAY_MP_BLOCK_SIZE
  bytes : w.handed ++ w.stream.pending =
    r.write_data.range 0 r.write_index ++ buffer.range 0 (w.taken size)
  turns : n + w.left size ≤ 2 * size + 1

theorem call_taking (hindex : r.write_index < RT_AUDIO_REPLAY_MP_BLOCK_SIZE) :
    Taking r buffer size 0 (call r buffer size) :=
  ⟨.writing 0 rfl (Nat.zero_le _) rfl, hindex, (List.append_nil _).symm, by simp [left, call]⟩

theorem Taking.others (h : Taking r buffer size n w) (r' : AudioReplay) :
    Taking r buffer size n (w.others r') := by
  refine ⟨?_, h.write_index, h.bytes, h.turns⟩
  cases h.pc with
  | writing index hpc hle hresult => exact .writing index hpc hle hresult
  | pushing index hpc hle hresult hfull => exact .pushing index hpc hle hresult hfull
  | done hpc hresult => exact .done hpc hresult

/-- A turn of the loop, with the bytes that it copies. -/
theorem Taking.writeTurn (h : Taking r buffer size n w) (hsize : size < 65536)
    (hpc : w.stream.pc = .writing buffer size index) (hle : index ≤ size) (hresult : w.result = none)
    (hs : w.app = some w') : Taking r buffer size (n + 1) w' := by
  have hblock : RT_AUDIO_REPLAY_MP_BLOCK_SIZE = 4096 := rfl
  have hindex := h.write_index
  have hbytes := h.bytes
  have hturns := h.turns
  simp only [taken, left, Playback.pending, hpc] at hbytes hturns
  rw [app_writing hpc] at hs
  obtain ⟨c, hturn, rfl⟩ := Option.map_eq_some_iff.mp hs
  rcases Playback.writeTurn_cases hindex hturn with ⟨hlt, k, mp, write_data, hk, hcopy, rfl⟩ | ⟨hge, rfl⟩
  · rw [Nat.mod_eq_of_lt (show index + k < 65536 by omega), if_pos hlt]
    have hmore : w.handed ++ write_data.range 0 (w.stream.replay.write_index + k) =
        r.write_data.range 0 r.write_index ++ buffer.range 0 (index + k) := by
      rw [hcopy, ← List.append_assoc, hbytes, List.append_assoc, Bytes.range_add, Nat.zero_add]
    by_cases hfull : w.stream.replay.write_index + k = RT_AUDIO_REPLAY_MP_BLOCK_SIZE
    · rw [hfull, Nat.mod_self, if_pos rfl]
      rw [hfull] at hmore
      refine ⟨.pushing (index + k) rfl (by omega) rfl rfl, Nat.zero_lt_succ _, hmore, ?_⟩
      simp only [left]
      omega
    · rw [Nat.mod_eq_of_lt (show w.stream.replay.write_index + k < RT_AUDIO_REPLAY_MP_BLOCK_SIZE by omega),
        if_neg (by omega)]
      refine ⟨.writing (index + k) rfl (by omega) rfl, ?_, hmore, ?_⟩
      · show w.stream.replay.write_index + k < RT_AUDIO_REPLAY_MP_BLOCK_SIZE
        omega
      · simp only [left]
        omega
  · have heq : index = size := by omega
    subst heq
    rw [if_neg (Nat.lt_irrefl index)]
    refine ⟨.done rfl rfl, hindex, hbytes, ?_⟩
    simp only [left]
    omega

/-- A full block goes to the queue. -/
theorem Taking.push (h : Taking r buffer size n w)
    (hpc : w.stream.pc = .pushing buffer size index) (hle : index ≤ size) (hresult : w.result = none)
    (hfull : w.stream.replay.write_index = 0) (hs : w.app = some w') :
    Taking r buffer size (n + 1) w' := by
  have hbytes := h.bytes
  have hturns := h.turns
  simp only [taken, left, Playback.pending, hpc] at hbytes hturns
  rw [app_pushing hpc] at hs
  obtain ⟨r', hpush, rfl⟩ := Option.map_eq_some_iff.mp hs
  obtain rfl := push_cases hpush
  refine ⟨.writing index rfl hle hresult, h.write_index, ?_, ?_⟩
  · simp only [taken, Playback.pending, hfull, Bytes.range_zero, List.append_nil]
    exact hbytes
  · simp only [left]
    omega

theorem Taking.app (h : Taking r buffer size n w) (hsize : size < 65536) (hs : w.app = some w') :
    Taking r buffer size (n + 1) w' := by
  cases h.pc with
  | writing index hpc hle hresult => exact h.writeTurn hsize hpc hle hresult hs
  | pushing index hpc hle hresult hfull => exact h.push hpc hle hresult hfull hs
  | done hpc hresult =>
    simp only [AudioWrite.app, hpc] at hs
    cases hs

theorem turns_taking (hindex : r.write_index < RT_AUDIO_REPLAY_MP_BLOCK_SIZE) (hsize : size < 65536)
    (ht : Turns n (call r buffer size) w) : Taking r buffer size n w := by
  generalize hcall : call r buffer size = w0 at ht
  induction ht with
  | start => exact hcall ▸ call_taking hindex
  | app h hs ih => exact (ih hcall).app hsize hs
  | others h r' ih => exact (ih hcall).others r'

theorem Taking.inside (h : Taking r buffer size n w) : w.CopyInside := by
  have hindex := h.write_index
  unfold CopyInside
  cases h.pc with
  | writing index hpc hle hresult =>
    rw [hpc]
    intro hlt
    have hcount : w.stream.replay.writeCount size index ≤
        min (RT_AUDIO_REPLAY_MP_BLOCK_SIZE - w.stream.replay.write_index) (size - index) :=
      Nat.mod_le _ _
    omega
  | pushing index hpc hle hresult hfull =>
    rw [hpc]
    trivial
  | done hpc hresult =>
    rw [hpc]
    trivial

/-! ### Larger sizes -/

/-- The index has 16 bits, so it stays below the size. -/
theorem turns_for_ever (hindex : r.write_index < RT_AUDIO_REPLAY_MP_BLOCK_SIZE) (buffer : Bytes)
    (hsize : 65536 ≤ size) (n : Nat) : ∃ w index, Turns n (call r buffer size) w ∧
      w.stream.replay.write_index < RT_AUDIO_REPLAY_MP_BLOCK_SIZE ∧ index < 65536 ∧
      (w.stream.pc = .writing buffer size index ∨ w.stream.pc = .pushing buffer size index) := by
  induction n with
  | zero => exact ⟨_, 0, .start _, hindex, by omega, .inl rfl⟩
  | succ n ih =>
    obtain ⟨w, index, ht, hw, hlt, hpc⟩ := ih
    -- the audio thread gives a block back and takes the queue
    let r' : AudioReplay := { w.stream.replay with mp := 1, queue := [] }
    have hpc' : (w.others r').stream.pc = .writing buffer size index ∨
        (w.others r').stream.pc = .pushing buffer size index := hpc
    obtain ⟨w', hs⟩ := app_goes hpc' Nat.zero_lt_one (Nat.zero_lt_succ _)
    refine ⟨w', ?_⟩
    have ht' := (ht.others r').app hs
    rcases hpc' with hpc' | hpc'
    · rw [app_writing hpc'] at hs
      obtain ⟨c, hturn, rfl⟩ := Option.map_eq_some_iff.mp hs
      have hw' : (w.others r').stream.replay.write_index < RT_AUDIO_REPLAY_MP_BLOCK_SIZE := hw
      rcases Playback.writeTurn_cases hw' hturn with ⟨-, k, mp, write_data, -, -, rfl⟩ | ⟨hge, -⟩
      · refine ⟨(index + k) % 65536, ht', Nat.mod_lt _ (by decide), Nat.mod_lt _ (by decide), ?_⟩
        dsimp only
        split
        · exact .inr rfl
        · exact .inl rfl
      · omega
    · rw [app_pushing hpc'] at hs
      obtain ⟨r2, hpush, rfl⟩ := Option.map_eq_some_iff.mp hs
      obtain rfl := push_cases hpush
      exact ⟨index, ht', hw, hlt, .inl rfl⟩

end AudioWrite

/-- `_audio_dev_write` takes the buffer just where its size has 16 bits, whatever the block holds when
it is called. -/
theorem audio_write_takes (r : AudioReplay) (hindex : r.write_index < RT_AUDIO_REPLAY_MP_BLOCK_SIZE)
    (buffer : Bytes) (size : Nat) : WriteTakes r buffer size ↔ size < 65536 := by
  constructor
  · intro h
    by_contra hsize
    obtain ⟨N, hN⟩ := h.ends
    obtain ⟨w, index, ht, -⟩ := AudioWrite.turns_for_ever hindex buffer (Nat.not_lt.mp hsize) (N + 1)
    have := hN _ _ ht
    omega
  · intro hsize
    have htaking {n : Nat} {w : AudioWrite} (ht : AudioWrite.Turns n (.call r buffer size) w) :=
      AudioWrite.turns_taking hindex hsize ht
    refine ⟨fun n w ht => (htaking ht).bytes, fun n w ht => (htaking ht).write_index,
      fun n w ht => (htaking ht).inside, ⟨2 * size + 1, fun n w ht => ?_⟩,
      fun n w ht hnone hmp hqueue => ?_, fun n w k ht hk => ?_⟩
    · have := (htaking ht).turns
      omega
    · cases (htaking ht).pc with
      | writing index hpc hle hresult => exact AudioWrite.app_goes (.inl hpc) hmp hqueue
      | pushing index hpc hle hresult hfull => exact AudioWrite.app_goes (.inr hpc) hmp hqueue
      | done hpc hresult => rw [hresult] at hnone; cases hnone
    · cases (htaking ht).pc with
      | writing index hpc hle hresult => rw [hresult] at hk; cases hk
      | pushing index hpc hle hresult hfull => rw [hresult] at hk; cases hk
      | done hpc hresult =>
        rw [hresult] at hk
        cases hk
        exact ⟨rfl, by simp only [AudioWrite.taken, hpc]⟩

/-- A replay stream that has 4090 bytes in its block. -/
def almostFullBlock : AudioReplay :=
  { mp := 1, queue := [], cmp := false, buf_info := sound_buffer_info, buffer := fun _ => 0,
    write_data := fun _ => 1, write_index := 4090, read_index := 0, pos := 0, event := false,
    activated := true, copied := [] }

theorem audio_write_takes_ten : WriteTakes almostFullBlock (fun _ => 2) 10 :=
  (audio_write_takes almostFullBlock (by decide) (fun _ => 2) 10).mpr (by decide)

/-- A write of 65536 bytes does not return. -/
theorem audio_write_endless :
    ¬ ∀ r : AudioReplay, r.write_index < RT_AUDIO_REPLAY_MP_BLOCK_SIZE → ∀ buffer size,
      size < 2 ^ 32 → WriteTakes r buffer size := by
  intro h
  have hindex : almostFullBlock.write_index < RT_AUDIO_REPLAY_MP_BLOCK_SIZE := by decide
  obtain ⟨N, hN⟩ := (h almostFullBlock hindex (fun _ => 2) 65536 (by decide)).ends
  obtain ⟨w, index, ht, -⟩ := AudioWrite.turns_for_ever hindex (fun _ => 2) (Nat.le_refl _) (N + 1)
  have := hN _ _ ht
  omega

end Ab32Vg1.Drivers
