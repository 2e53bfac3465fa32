import Ab32Vg1.ProofKit.ByteMemory
import Ab32Vg1.ProofKit.Transition
import Mathlib.Data.List.DropRight

/-! The byte ring buffer of `ringbuffer.c`.  Each index carries a mirror bit, which flips when the
index wraps: equal indices mean an empty buffer when the mirrors agree and a full one when they
differ. -/

namespace Ab32Vg1.Drivers

open ProofKit

/-- `struct rt_ringbuffer`; the mirrors have one bit, the indices 15. -/
structure RingBuffer where
  buffer_ptr : Bytes
  read_mirror : Bool
  read_index : Nat
  write_mirror : Bool
  write_index : Nat
  buffer_size : Nat

/-- `enum rt_ringbuffer_state`. -/
inductive RingBufferState
  | RT_RINGBUFFER_EMPTY
  | RT_RINGBUFFER_FULL
  | RT_RINGBUFFER_HALFFULL
  deriving DecidableEq

open RingBufferState

def rt_ringbuffer_status (rb : RingBuffer) : RingBufferState :=
  if rb.read_index = rb.write_index then
    if rb.read_mirror = rb.write_mirror then RT_RINGBUFFER_EMPTY else RT_RINGBUFFER_FULL
  else RT_RINGBUFFER_HALFFULL

/-- `rt_ringbuffer_init`, with `RT_ALIGN_SIZE` 8. -/
def rt_ringbuffer_init (pool : Bytes) (size : Nat) : RingBuffer where
  buffer_ptr := pool
  read_mirror := false
  read_index := 0
  write_mirror := false
  write_index := 0
  buffer_size := size / 8 * 8

def rt_ringbuffer_data_len (rb : RingBuffer) : Nat :=
  match rt_ringbuffer_status rb with
  | RT_RINGBUFFER_EMPTY => 0
  | RT_RINGBUFFER_FULL => rb.buffer_size
  | RT_RINGBUFFER_HALFFULL =>
    if rb.write_index > rb.read_index then rb.write_index - rb.read_index
    else rb.buffer_size - (rb.read_index - rb.write_index)

def rt_ringbuffer_space_len (rb : RingBuffer) : Nat :=
  rb.buffer_size - rt_ringbuffer_data_len rb

/-- The copy that `rt_ringbuffer_put` and `rt_ringbuffer_put_force` share: `length` bytes of `ptr`,
from the byte `s` on, go to the write index and, past the end of the pool, to its start. -/
def RingBuffer.write (rb : RingBuffer) (ptr : Bytes) (s length : Nat) : RingBuffer :=
  if rb.buffer_size - rb.write_index > length then
    { rb with
      buffer_ptr := rb.buffer_ptr.blit rb.write_index ptr s length
      write_index := (rb.write_index + length) % 2 ^ 15 }
  else
    { rb with
      buffer_ptr := (rb.buffer_ptr.blit rb.write_index ptr s (rb.buffer_size - rb.write_index)).blit
        0 ptr (s + (rb.buffer_size - rb.write_index))
        (length - (rb.buffer_size - rb.write_index))
      write_mirror := !rb.write_mirror
      write_index := (length - (rb.buffer_size - rb.write_index)) % 2 ^ 15 }

/-- `rt_ringbuffer_put`: the buffer and the count returned. -/
def rt_ringbuffer_put (rb : RingBuffer) (ptr : Bytes) (length : Nat) : RingBuffer × Nat :=
  let size := rt_ringbuffer_space_len rb
  if size = 0 then (rb, 0)
  else
    let length := if size < length then size else length
    (rb.write ptr 0 length, length)

def rt_ringbuffer_put_force (rb : RingBuffer) (ptr : Bytes) (length : Nat) : RingBuffer × Nat :=
  let space_length := rt_ringbuffer_space_len rb
  -- `ptr` moves past the bytes that do not fit in the pool
  let s := if length > rb.buffer_size then length - rb.buffer_size else 0
  let length := if length > rb.buffer_size then rb.buffer_size else length
  let rb' := rb.write ptr s length
  if rb.buffer_size - rb.write_index > length then
    if length > space_length then ({ rb' with read_index := rb'.write_index }, length)
    else (rb', length)
  else
    if length > space_length then
      ({ rb' with read_mirror := !rb'.read_mirror, read_index := rb'.write_index }, length)
    else (rb', length)

/-- `rt_ringbuffer_get`: the buffer, the memory at `ptr` and the count returned. -/
def rt_ringbuffer_get (rb : RingBuffer) (ptr : Bytes) (length : Nat) : RingBuffer × Bytes × Nat :=
  let size := rt_ringbuffer_data_len rb
  if size = 0 then (rb, ptr, 0)
  else
    let length := if size < length then size else length
    if rb.buffer_size - rb.read_index > length then
      ({ rb with read_index := (rb.read_index + length) % 2 ^ 15 },
        ptr.blit 0 rb.buffer_ptr rb.read_index length, length)
    else
      ({ rb with
          read_mirror := !rb.read_mirror
          read_index := (length - (rb.buffer_size - rb.read_index)) % 2 ^ 15 },
        (ptr.blit 0 rb.buffer_ptr rb.read_index (rb.buffer_size - rb.read_index)).blit
          (rb.buffer_size - rb.read_index) rb.buffer_ptr 0
          (length - (rb.buffer_size - rb.read_index)),
        length)

/-- `rt_ringbuffer_peak`: the buffer, the offset in the pool that `*ptr` is set to and the count
returned. -/
def rt_ringbuffer_peak (rb : RingBuffer) : RingBuffer × Option Nat × Nat :=
  let size := rt_ringbuffer_data_len rb
  if size = 0 then (rb, none, 0)
  else if rb.buffer_size - rb.read_index > size then
    ({ rb with read_index := (rb.read_index + size) % 2 ^ 15 }, some rb.read_index, size)
  else
    ({ rb with read_mirror := !rb.read_mirror, read_index := 0 }, some rb.read_index,
      rb.buffer_size - rb.read_index)

def rt_ringbuffer_putchar (rb : RingBuffer) (ch : UInt8) : RingBuffer × Nat :=
  if rt_ringbuffer_space_len rb = 0 then (rb, 0)
  else
    let rb := { rb with buffer_ptr := Function.update rb.buffer_ptr rb.write_index ch }
    if rb.write_index = rb.buffer_size - 1 then
      ({ rb with write_mirror := !rb.write_mirror, write_index := 0 }, 1)
    else ({ rb with write_index := (rb.write_index + 1) % 2 ^ 15 }, 1)

def rt_ringbuffer_putchar_force (rb : RingBuffer) (ch : UInt8) : RingBuffer × Nat :=
  let old_state := rt_ringbuffer_status rb
  let rb := { rb with buffer_ptr := Function.update rb.buffer_ptr rb.write_index ch }
  if rb.write_index = rb.buffer_size - 1 then
    let rb := { rb with write_mirror := !rb.write_mirror, write_index := 0 }
    if old_state = RT_RINGBUFFER_FULL then
      ({ rb with read_mirror := !rb.read_mirror, read_index := rb.write_index }, 1)
    else (rb, 1)
  else
    let rb := { rb with write_index := (rb.write_index + 1) % 2 ^ 15 }
    if old_state = RT_RINGBUFFER_FULL then ({ rb with read_index := rb.write_index }, 1)
    else (rb, 1)

/-- `rt_ringbuffer_getchar`: the buffer, the byte at `ch` and the count returned. -/
def rt_ringbuffer_getchar (rb : RingBuffer) (ch : UInt8) : RingBuffer × UInt8 × Nat :=
  if rt_ringbuffer_data_len rb = 0 then (rb, ch, 0)
  else
    let ch := rb.buffer_ptr rb.read_index
    if rb.read_index = rb.buffer_size - 1 then
      ({ rb with read_mirror := !rb.read_mirror, read_index := 0 }, ch, 1)
    else ({ rb with read_index := (rb.read_index + 1) % 2 ^ 15 }, ch, 1)

def rt_ringbuffer_reset (rb : RingBuffer) : RingBuffer :=
  { rb with read_mirror := false, read_index := 0, write_mirror := false, write_index := 0 }

/-! ### The contents -/

/-- The bytes queued, oldest first. -/
def RingBuffer.content (rb : RingBuffer) : List UInt8 :=
  if rb.read_mirror = rb.write_mirror then
    rb.buffer_ptr.range rb.read_index (rb.write_index - rb.read_index)
  else
    rb.buffer_ptr.range rb.read_index (rb.buffer_size - rb.read_index) ++
      rb.buffer_ptr.range 0 rb.write_index

/-- The indices lie in the pool, the write index ahead in the same mirror or behind in the other. -/
structure RingBuffer.Valid (rb : RingBuffer) : Prop where
  size_lt : rb.buffer_size < 2 ^ 15
  read_lt : rb.read_index < rb.buffer_size
  write_lt : rb.write_index < rb.buffer_size
  same : rb.read_mirror = rb.write_mirror → rb.read_index ≤ rb.write_index
  other : rb.read_mirror ≠ rb.write_mirror → rb.write_index ≤ rb.read_index

namespace RingBuffer

variable {rb : RingBuffer}

theorem content_same (h : rb.read_mirror = rb.write_mirror) :
    rb.content = rb.buffer_ptr.range rb.read_index (rb.write_index - rb.read_index) :=
  if_pos h

theorem content_other (h : rb.read_mirror ≠ rb.write_mirror) :
    rb.content = rb.buffer_ptr.range rb.read_index (rb.buffer_size - rb.read_index) ++
      rb.buffer_ptr.range 0 rb.write_index :=
  if_neg h

theorem length_content (rb : RingBuffer) :
    rb.content.length = if rb.read_mirror = rb.write_mirror then rb.write_index - rb.read_index
      else rb.buffer_size - rb.read_index + rb.write_index := by
  by_cases h : rb.read_mirror = rb.write_mirror
  · rw [content_same h, if_pos h, Bytes.length_range]
  · rw [content_other h, if_neg h, List.length_append, Bytes.length_range, Bytes.length_range]

/-- The length that the indices and mirrors give is the length of the contents. -/
theorem Valid.data_len (hv : rb.Valid) : rt_ringbuffer_data_len rb = rb.content.length := by
  have hr := hv.read_lt
  rw [rb.length_content, rt_ringbuffer_data_len, rt_ringbuffer_status]
  by_cases h : rb.read_mirror = rb.write_mirror
  · have := hv.same h
    by_cases hi : rb.read_index = rb.write_index
    · simp [hi, h]
    · simp only [hi, if_false, h, if_true]
      rw [if_pos (by omega)]
  · have := hv.other h
    by_cases hi : rb.read_index = rb.write_index
    · simp only [hi, if_true, h, if_false]
      omega
    · simp only [hi, if_false, h]
      rw [if_neg (by omega)]
      omega

theorem Valid.length_le (hv : rb.Valid) : rb.content.length ≤ rb.buffer_size := by
  have := hv.read_lt
  have := hv.write_lt
  rw [rb.length_content]
  split
  · omega
  · have := hv.other (by assumption)
    omega

theorem Valid.space_len (hv : rb.Valid) :
    rt_ringbuffer_space_len rb = rb.buffer_size - rb.content.length := by
  rw [rt_ringbuffer_space_len, hv.data_len]

/-! ### Copying in -/

theorem write_of_lt {ptr : Bytes} {s length : Nat} (hv : rb.Valid)
    (h : rb.write_index + length < rb.buffer_size) :
    rb.write ptr s length = { rb with
      buffer_ptr := rb.buffer_ptr.blit rb.write_index ptr s length
      write_index := rb.write_index + length } := by
  have := hv.size_lt
  rw [write, if_pos (by omega), Nat.mod_eq_of_lt (by omega)]

theorem write_of_le {ptr : Bytes} {s length : Nat} (hv : rb.Valid)
    (h : rb.buffer_size ≤ rb.write_index + length) (hl : length ≤ rb.buffer_size) :
    rb.write ptr s length = { rb with
      buffer_ptr := (rb.buffer_ptr.blit rb.write_index ptr s (rb.buffer_size - rb.write_index)).blit
        0 ptr (s + (rb.buffer_size - rb.write_index)) (rb.write_index + length - rb.buffer_size)
      write_mirror := !rb.write_mirror
      write_index := rb.write_index + length - rb.buffer_size } := by
  have := hv.size_lt
  have := hv.write_lt
  rw [write, if_neg (by omega), Nat.mod_eq_of_lt (by omega),
    show length - (rb.buffer_size - rb.write_index) = rb.write_index + length - rb.buffer_size by
      omega]

/-- Bytes that fit go behind the contents. -/
theorem content_write (ptr : Bytes) (s length : Nat) (hv : rb.Valid)
    (hfit : rb.content.length + length ≤ rb.buffer_size) :
    (rb.write ptr s length).Valid ∧
      (rb.write ptr s length).content = rb.content ++ ptr.range s length := by
  have hs := hv.size_lt
  have hr := hv.read_lt
  have hw := hv.write_lt
  have hl : length ≤ rb.buffer_size := by omega
  rw [rb.length_content] at hfit
  by_cases hlt : rb.write_index + length < rb.buffer_size
  · rw [write_of_lt hv hlt]
    by_cases hm : rb.read_mirror = rb.write_mirror
    · have hle := hv.same hm
      rw [if_pos hm] at hfit
      refine ⟨⟨hs, hr, hlt, fun _ => ?_, fun h => absurd hm h⟩, ?_⟩
      · show rb.read_index ≤ rb.write_index + length
        omega
      rw [content_same hm, content_same (by exact hm)]
      show Bytes.range _ rb.read_index (rb.write_index + length - rb.read_index) = _
      obtain ⟨d, hd⟩ := Nat.exists_eq_add_of_le hle
      rw [hd, show rb.read_index + d + length - rb.read_index = d + length by omega,
        Nat.add_sub_cancel_left, Bytes.range_blit_append]
    · have hle := hv.other hm
      rw [if_neg hm] at hfit
      refine ⟨⟨hs, hr, hlt, fun h => absurd h hm, fun _ => ?_⟩, ?_⟩
      · show rb.write_index + length ≤ rb.read_index
        omega
      rw [content_other hm, content_other (by exact hm)]
      show Bytes.range _ rb.read_index (rb.buffer_size - rb.read_index) ++
        Bytes.range _ 0 (rb.write_index + length) = _
      have hback := Bytes.range_blit_append rb.buffer_ptr ptr 0 rb.write_index s length
      rw [Nat.zero_add] at hback
      rw [Bytes.range_congr (Bytes.blit_agreeOn (by omega)), hback, List.append_assoc]
  · rw [write_of_le hv (by omega) hl]
    by_cases hm : rb.read_mirror = rb.write_mirror
    · have hle := hv.same hm
      rw [if_pos hm] at hfit
      have hne : rb.read_mirror ≠ !rb.write_mirror := by simp [hm]
      refine ⟨⟨hs, hr, ?_, fun h => absurd h hne, fun _ => ?_⟩, ?_⟩
      · show rb.write_index + length - rb.buffer_size < rb.buffer_size
        omega
      · show rb.write_index + length - rb.buffer_size ≤ rb.read_index
        omega
      rw [content_same hm, content_other (by exact hne)]
      show Bytes.range _ rb.read_index (rb.buffer_size - rb.read_index) ++
        Bytes.range _ 0 (rb.write_index + length - rb.buffer_size) = _
      -- the first piece goes up to the end of the pool, the second to its start
      obtain ⟨d, hd⟩ := Nat.exists_eq_add_of_le hle
      rw [Bytes.range_blit, Bytes.range_congr (Bytes.blit_agreeOn (by omega)), hd,
        show rb.buffer_size - rb.read_index =
          d + (rb.buffer_size - (rb.read_index + d)) by omega,
        Bytes.range_blit_append, Nat.add_sub_cancel_left, List.append_assoc, ← Bytes.range_add,
        show rb.buffer_size - (rb.read_index + d) + (rb.read_index + d + length - rb.buffer_size) =
          length by omega]
    · have hle := hv.other hm
      rw [if_neg hm] at hfit
      have : length = 0 := by omega
      omega

/-- The contents of a full buffer. -/
theorem content_full (hm : rb.read_mirror ≠ rb.write_mirror)
    (hi : rb.read_index = rb.write_index) :
    rb.content = rb.buffer_ptr.range rb.write_index (rb.buffer_size - rb.write_index) ++
      rb.buffer_ptr.range 0 rb.write_index := by
  rw [content_other hm, hi]

/-- What is left of the contents and new bytes when the oldest ones go. -/
theorem rtake_content {ptr : Bytes} {s length : Nat} (hm : rb.read_mirror ≠ rb.write_mirror)
    (hr : rb.read_index < rb.buffer_size) :
    (rb.content ++ ptr.range s length).rtake rb.buffer_size =
      (rb.buffer_ptr.range rb.read_index (rb.buffer_size - rb.read_index) ++
        (rb.buffer_ptr.range 0 rb.write_index ++ ptr.range s length)).drop
          (rb.write_index + length - rb.read_index) := by
  rw [content_other hm, List.rtake, List.append_assoc]
  simp only [List.length_append, Bytes.length_range]
  congr 1
  omega

/-- The write index goes past the read index, in the same pass over the pool. -/
theorem content_over_of_lt (ptr : Bytes) (s length : Nat) (hv : rb.Valid)
    (hm : rb.read_mirror ≠ rb.write_mirror) (hextra : rb.read_index < rb.write_index + length)
    (hlt : rb.write_index + length < rb.buffer_size) :
    let rb' := { rb.write ptr s length with read_index := (rb.write ptr s length).write_index }
    rb'.Valid ∧ rb'.content = (rb.content ++ ptr.range s length).rtake rb.buffer_size := by
  have hr := hv.read_lt
  have hle := hv.other hm
  intro rb'
  have hrb : rb' = { rb with
      buffer_ptr := rb.buffer_ptr.blit rb.write_index ptr s length
      write_index := rb.write_index + length
      read_index := rb.write_index + length } := by
    simp only [rb', write_of_lt hv hlt]
  rw [hrb]
  refine ⟨⟨hv.size_lt, hlt, hlt, fun h => absurd h hm, fun _ => le_rfl⟩, ?_⟩
  have hback := Bytes.range_blit_append rb.buffer_ptr ptr 0 rb.write_index s length
  rw [Nat.zero_add] at hback
  rw [rtake_content hm hr, List.drop_append_of_le_length (by rw [Bytes.length_range]; omega),
    Bytes.drop_range (by omega), content_full (by exact hm) rfl]
  show Bytes.range _ (rb.write_index + length) (rb.buffer_size - (rb.write_index + length)) ++
    Bytes.range _ 0 (rb.write_index + length) = _
  rw [Bytes.range_congr (Bytes.blit_agreeOn (by omega)), hback,
    show rb.read_index + (rb.write_index + length - rb.read_index) = rb.write_index + length by
      omega,
    show rb.buffer_size - rb.read_index - (rb.write_index + length - rb.read_index) =
      rb.buffer_size - (rb.write_index + length) by omega]

/-- The write index goes round the end of the pool and past the read index. -/
theorem content_over_of_le (ptr : Bytes) (s length : Nat) (hv : rb.Valid)
    (hm : rb.read_mirror ≠ rb.write_mirror) (hle : rb.buffer_size ≤ rb.write_index + length)
    (hl : length ≤ rb.buffer_size) :
    let rb' := { rb.write ptr s length with
      read_mirror := !rb.read_mirror
      read_index := (rb.write ptr s length).write_index }
    rb'.Valid ∧ rb'.content = (rb.content ++ ptr.range s length).rtake rb.buffer_size := by
  have hr := hv.read_lt
  have hw := hv.write_lt
  have hwr := hv.other hm
  intro rb'
  obtain ⟨extra, hextra⟩ := Nat.exists_eq_add_of_le hle
  have hrb : rb' = { rb with
      buffer_ptr := (rb.buffer_ptr.blit rb.write_index ptr s (rb.buffer_size - rb.write_index)).blit
        0 ptr (s + (rb.buffer_size - rb.write_index)) extra
      write_mirror := !rb.write_mirror
      write_index := extra
      read_mirror := !rb.read_mirror
      read_index := extra } := by
    simp only [rb', write_of_le hv hle hl, hextra, Nat.add_sub_cancel_left]
  have hm' : (!rb.read_mirror) ≠ !rb.write_mirror := by simpa using hm
  rw [hrb]
  refine ⟨⟨hv.size_lt, ?_, ?_, fun h => absurd h hm', fun _ => le_rfl⟩, ?_⟩
  · show extra < rb.buffer_size
    omega
  · show extra < rb.buffer_size
    omega
  rw [rtake_content hm hr, List.drop_append, List.drop_eq_nil_of_le
      (by rw [Bytes.length_range]; omega), List.nil_append, Bytes.length_range,
    show rb.write_index + length - rb.read_index - (rb.buffer_size - rb.read_index) = extra by omega,
    List.drop_append_of_le_length (by rw [Bytes.length_range]; omega),
    Bytes.drop_range (by omega), content_full (by exact hm') rfl]
  show Bytes.range _ extra (rb.buffer_size - extra) ++ Bytes.range _ 0 extra = _
  -- old bytes up to the old write index, then the new ones in two pieces
  obtain ⟨d, hd⟩ : ∃ d, rb.write_index = extra + d := Nat.exists_eq_add_of_le (by omega)
  rw [Bytes.range_blit, Bytes.range_congr (Bytes.blit_agreeOn (by omega)), hd,
    show rb.buffer_size - extra = d + (rb.buffer_size - (extra + d)) by omega,
    Bytes.range_blit_append, Nat.zero_add, Nat.add_sub_cancel_left, List.append_assoc,
    ← Bytes.range_add,
    show rb.buffer_size - (extra + d) + extra = length by omega]

/-! ### Copying out -/

/-- The buffer after `length` bytes, at most as many as it holds, are taken. -/
def taken (rb : RingBuffer) (length : Nat) : RingBuffer :=
  if rb.buffer_size - rb.read_index > length then
    { rb with read_index := (rb.read_index + length) % 2 ^ 15 }
  else
    { rb with
      read_mirror := !rb.read_mirror
      read_index := (length - (rb.buffer_size - rb.read_index)) % 2 ^ 15 }

theorem content_taken (length : Nat) (hv : rb.Valid) (hl : length ≤ rb.content.length) :
    (rb.taken length).Valid ∧ (rb.taken length).content = rb.content.drop length := by
  have hs := hv.size_lt
  have hr := hv.read_lt
  have hw := hv.write_lt
  rw [rb.length_content] at hl
  by_cases hm : rb.read_mirror = rb.write_mirror
  · have hle := hv.same hm
    rw [if_pos hm] at hl
    rw [taken, if_pos (by omega), Nat.mod_eq_of_lt (by omega)]
    refine ⟨⟨hs, ?_, hw, fun _ => ?_, fun h => absurd hm h⟩, ?_⟩
    · show rb.read_index + length < rb.buffer_size
      omega
    · show rb.read_index + length ≤ rb.write_index
      omega
    rw [content_same hm, content_same (by exact hm), Bytes.drop_range hl, Nat.sub_sub]
  · have hle := hv.other hm
    rw [if_neg hm] at hl
    by_cases hlt : length < rb.buffer_size - rb.read_index
    · rw [taken, if_pos hlt, Nat.mod_eq_of_lt (by omega)]
      refine ⟨⟨hs, ?_, hw, fun h => absurd h hm, fun _ => ?_⟩, ?_⟩
      · show rb.read_index + length < rb.buffer_size
        omega
      · show rb.write_index ≤ rb.read_index + length
        omega
      rw [content_other hm, content_other (by exact hm), List.drop_append_of_le_length
        (by rw [Bytes.length_range]; omega), Bytes.drop_range hlt.le, Nat.sub_sub]
    · rw [taken, if_neg (by omega), Nat.mod_eq_of_lt (by omega)]
      have hm' : (!rb.read_mirror) = rb.write_mirror := by
        cases h : rb.read_mirror <;> cases h' : rb.write_mirror <;> simp_all
      refine ⟨⟨hs, ?_, hw, fun _ => ?_, fun h => absurd hm' h⟩, ?_⟩
      · show length - (rb.buffer_size - rb.read_index) < rb.buffer_size
        omega
      · show length - (rb.buffer_size - rb.read_index) ≤ rb.write_index
        omega
      rw [content_other hm, content_same (by exact hm'), List.drop_append,
        List.drop_eq_nil_of_le (by rw [Bytes.length_range]; omega), List.nil_append,
        Bytes.length_range, Bytes.drop_range (by omega), Nat.zero_add]

/-- The bytes copied out, in one piece or in two, are the oldest ones. -/
theorem take_content (ptr : Bytes) (length : Nat) (hv : rb.Valid)
    (hl : length ≤ rb.content.length) :
    rb.content.take length =
      if rb.buffer_size - rb.read_index > length then
        (ptr.blit 0 rb.buffer_ptr rb.read_index length).range 0 length
      else
        ((ptr.blit 0 rb.buffer_ptr rb.read_index (rb.buffer_size - rb.read_index)).blit
          (rb.buffer_size - rb.read_index) rb.buffer_ptr 0
          (length - (rb.buffer_size - rb.read_index))).range 0 length := by
  have hr := hv.read_lt
  have hw := hv.write_lt
  rw [rb.length_content] at hl
  split
  · rw [Bytes.range_blit]
    by_cases hm : rb.read_mirror = rb.write_mirror
    · rw [if_pos hm] at hl
      rw [content_same hm, Bytes.take_range hl]
    · rw [content_other hm, List.take_append_of_le_length (by rw [Bytes.length_range]; omega),
        Bytes.take_range (by omega)]
  · by_cases hm : rb.read_mirror = rb.write_mirror
    · have := hv.same hm
      rw [if_pos hm] at hl
      omega
    · rw [if_neg hm] at hl
      obtain ⟨extra, hextra⟩ : ∃ extra, length = rb.buffer_size - rb.read_index + extra :=
        Nat.exists_eq_add_of_le (by omega)
      have hback := Bytes.range_blit_append
        (ptr.blit 0 rb.buffer_ptr rb.read_index (rb.buffer_size - rb.read_index)) rb.buffer_ptr 0
        (rb.buffer_size - rb.read_index) 0 extra
      rw [Nat.zero_add] at hback
      rw [hextra, Nat.add_sub_cancel_left, hback, Bytes.range_blit, content_other hm,
        List.take_append, List.take_of_length_le (by simp), Bytes.length_range,
        Nat.add_sub_cancel_left, Bytes.take_range (by omega)]

end RingBuffer

/-! ### The operations on the contents -/

/-- An operation on the ring buffer, with lengths of 16 bits. -/
inductive RingBufferOp
  | put (ptr : Bytes) (length : UInt16)
  | put_force (ptr : Bytes) (length : UInt16)
  | putchar (ch : UInt8)
  | putchar_force (ch : UInt8)
  | get (ptr : Bytes) (length : UInt16)
  | getchar (ch : UInt8)
  | peak
  | reset

namespace RingBufferOp

/-- The buffer after an operation, the count that it returns and the bytes that it delivers. -/
def run (rb : RingBuffer) : RingBufferOp → RingBuffer × Nat × List UInt8
  | put ptr length =>
    let (rb', n) := rt_ringbuffer_put rb ptr length.toNat
    (rb', n, [])
  | put_force ptr length =>
    let (rb', n) := rt_ringbuffer_put_force rb ptr length.toNat
    (rb', n, [])
  | putchar ch =>
    let (rb', n) := rt_ringbuffer_putchar rb ch
    (rb', n, [])
  | putchar_force ch =>
    let (rb', n) := rt_ringbuffer_putchar_force rb ch
    (rb', n, [])
  | get ptr length =>
    let (rb', ptr', n) := rt_ringbuffer_get rb ptr length.toNat
    (rb', n, ptr'.range 0 n)
  | getchar ch =>
    let (rb', ch', n) := rt_ringbuffer_getchar rb ch
    (rb', n, [ch'].take n)
  | peak =>
    let (rb', ptr, n) := rt_ringbuffer_peak rb
    (rb', n, (ptr.map fun p => rb.buffer_ptr.range p n).getD [])
  | reset => (rt_ringbuffer_reset rb, 0, [])

/-- What an operation does to a bounded queue of bytes: `q` becomes `q'`, the count `n` is returned
and `bytes` are delivered. -/
def Fifo (size : Nat) (q q' : List UInt8) (n : Nat) (bytes : List UInt8) : RingBufferOp → Prop
  | put ptr length =>
    n = min length.toNat (size - q.length) ∧ q' = q ++ ptr.range 0 n ∧ bytes = []
  | put_force ptr length =>
    n = min length.toNat size ∧ q' = (q ++ ptr.range 0 length.toNat).rtake size ∧ bytes = []
  | putchar ch => n = min 1 (size - q.length) ∧ q' = q ++ [ch].take n ∧ bytes = []
  | putchar_force ch => n = 1 ∧ q' = (q ++ [ch]).rtake size ∧ bytes = []
  | get _ length => n = min length.toNat q.length ∧ bytes = q.take n ∧ q' = q.drop n
  | getchar _ => n = min 1 q.length ∧ bytes = q.take n ∧ q' = q.drop n
  | peak => n ≤ q.length ∧ (q ≠ [] → 0 < n) ∧ bytes = q.take n ∧ q' = q.drop n
  | reset => q' = [] ∧ bytes = []

/-- A forced put runs over the read index while both indices are in one mirror. -/
def Overruns (rb : RingBuffer) : RingBufferOp → Prop
  | put_force _ length =>
    rb.read_mirror = rb.write_mirror ∧
      rt_ringbuffer_space_len rb < min length.toNat rb.buffer_size
  | _ => False

end RingBufferOp

namespace RingBuffer

variable {rb : RingBuffer}

theorem write_buffer_size (rb : RingBuffer) (ptr : Bytes) (s length : Nat) :
    (rb.write ptr s length).buffer_size = rb.buffer_size := by
  rw [write]
  split <;> rfl

theorem put_fifo (hv : rb.Valid) (ptr : Bytes) (length : Nat) :
    let (rb', n) := rt_ringbuffer_put rb ptr length
    rb'.Valid ∧ rb'.buffer_size = rb.buffer_size ∧
      n = min length (rb.buffer_size - rb.content.length) ∧
      rb'.content = rb.content ++ ptr.range 0 n := by
  have hle := hv.length_le
  rw [rt_ringbuffer_put, hv.space_len]
  by_cases h0 : rb.buffer_size - rb.content.length = 0
  · simp only [h0, if_true]
    refine ⟨hv, by trivial, by omega, ?_⟩
    rw [Bytes.range_zero, List.append_nil]
  · simp only [h0, if_false]
    have hn : (if rb.buffer_size - rb.content.length < length
        then rb.buffer_size - rb.content.length else length) =
        min length (rb.buffer_size - rb.content.length) := by
      split <;> omega
    rw [hn]
    obtain ⟨hv', hc⟩ := content_write ptr 0
      (min length (rb.buffer_size - rb.content.length)) hv (by omega)
    exact ⟨hv', write_buffer_size .., rfl, hc⟩

theorem rtake_of_length_le {α : Type} {l : List α} {n : Nat} (h : l.length ≤ n) :
    l.rtake n = l := by
  rw [List.rtake, Nat.sub_eq_zero_of_le h, List.drop_zero]

/-- Of new bytes that do not all fit only the last ones matter. -/
theorem rtake_append_rtake {α : Type} (q d : List α) (n : Nat) :
    (q ++ d.rtake n).rtake n = (q ++ d).rtake n := by
  by_cases h : d.length ≤ n
  · rw [rtake_of_length_le h]
  · obtain ⟨k, hk⟩ : ∃ k, d.length = n + k := Nat.exists_eq_add_of_le (by omega)
    have hd : d.rtake n = d.drop k := by rw [List.rtake, hk, Nat.add_sub_cancel_left]
    rw [hd, List.rtake, List.rtake, List.length_append, List.length_append, List.length_drop, hk,
      show q.length + (n + k - k) - n = q.length by omega,
      show q.length + (n + k) - n = q.length + k by omega, List.drop_left, ← List.drop_drop,
      List.drop_left]

theorem rtake_range {m : Bytes} {length n : Nat} :
    (m.range 0 length).rtake n =
      m.range (if length > n then length - n else 0) (if length > n then n else length) := by
  rw [List.rtake, Bytes.length_range]
  split
  · rw [Bytes.drop_range (by omega), Nat.zero_add, Nat.sub_sub_self (by omega)]
  · rw [Nat.sub_eq_zero_of_le (by omega), List.drop_zero]

/-- What `rt_ringbuffer_put_force` leaves, with the length and start that fit in the pool. -/
theorem put_force_eq (rb : RingBuffer) (ptr : Bytes) (length : Nat) :
    ∃ s len, len = min length rb.buffer_size ∧
      (ptr.range 0 length).rtake rb.buffer_size = ptr.range s len ∧
      rt_ringbuffer_put_force rb ptr length =
        let rb' := rb.write ptr s len
        (if rt_ringbuffer_space_len rb < len then
          if rb.write_index + len < rb.buffer_size then { rb' with read_index := rb'.write_index }
          else { rb' with read_mirror := !rb'.read_mirror, read_index := rb'.write_index }
        else rb', len) := by
  refine ⟨_, _, ?_, rtake_range, ?_⟩
  · split <;> omega
  · rw [rt_ringbuffer_put_force]
    generalize (if length > rb.buffer_size then rb.buffer_size else length) = len
    generalize (if length > rb.buffer_size then length - rb.buffer_size else 0) = s
    by_cases hextra : rt_ringbuffer_space_len rb < len <;>
      by_cases hlt : rb.write_index + len < rb.buffer_size
    · simp only [hextra, hlt, if_true, gt_iff_lt, if_pos (show len < rb.buffer_size - rb.write_index
        by omega)]
    · simp only [hextra, hlt, if_true, if_false, gt_iff_lt,
        if_neg (show ¬len < rb.buffer_size - rb.write_index by omega)]
    · simp only [hextra, if_false, gt_iff_lt, ite_self]
    · simp only [hextra, if_false, gt_iff_lt, ite_self]

theorem write_read (rb : RingBuffer) (ptr : Bytes) (s length : Nat) :
    (rb.write ptr s length).read_mirror = rb.read_mirror ∧
      (rb.write ptr s length).read_index = rb.read_index := by
  rw [write]
  split <;> exact ⟨rfl, rfl⟩

/-- A forced put keeps the last bytes of the contents and the new ones, unless the indices are in
one mirror and the new bytes do not fit. -/
theorem put_force_fifo (hv : rb.Valid) (ptr : Bytes) (length : Nat)
    (hok : ¬(rb.read_mirror = rb.write_mirror ∧
      rt_ringbuffer_space_len rb < min length rb.buffer_size)) :
    let (rb', n) := rt_ringbuffer_put_force rb ptr length
    rb'.Valid ∧ rb'.buffer_size = rb.buffer_size ∧ n = min length rb.buffer_size ∧
      rb'.content = (rb.content ++ ptr.range 0 length).rtake rb.buffer_size := by
  have hle := hv.length_le
  obtain ⟨s, len, hlen, hrange, heq⟩ := put_force_eq rb ptr length
  rw [heq, ← rtake_append_rtake, hrange]
  by_cases hextra : rt_ringbuffer_space_len rb < len
  · have hm : rb.read_mirror ≠ rb.write_mirror := fun h => hok ⟨h, by omega⟩
    simp only [hextra, if_true]
    rw [hv.space_len, rb.length_content, if_neg hm] at hextra
    have hr := hv.read_lt
    have hwr := hv.other hm
    by_cases hlt : rb.write_index + len < rb.buffer_size
    · simp only [hlt, if_true]
      obtain ⟨hv', hc⟩ := content_over_of_lt ptr s len hv hm (by omega) hlt
      exact ⟨hv', write_buffer_size .., hlen, hc⟩
    · simp only [hlt, if_false, (write_read ..).1]
      obtain ⟨hv', hc⟩ := content_over_of_le ptr s len hv hm
        (Nat.le_of_not_lt hlt) (by omega)
      exact ⟨hv', write_buffer_size .., hlen, hc⟩
  · simp only [hextra, if_false]
    rw [hv.space_len] at hextra
    obtain ⟨hv', hc⟩ := content_write ptr s len hv (by omega)
    refine ⟨hv', write_buffer_size .., hlen, ?_⟩
    rw [hc, rtake_of_length_le (by rw [List.length_append, Bytes.length_range]; omega)]

/-- A forced put that runs over the read index in the same mirror leaves the buffer empty. -/
theorem put_force_overrun (hv : rb.Valid) (ptr : Bytes) (length : Nat)
    (hm : rb.read_mirror = rb.write_mirror)
    (hextra : rt_ringbuffer_space_len rb < min length rb.buffer_size) :
    (rt_ringbuffer_put_force rb ptr length).1.Valid ∧
      (rt_ringbuffer_put_force rb ptr length).1.buffer_size = rb.buffer_size ∧
      (rt_ringbuffer_put_force rb ptr length).1.content = [] := by
  have hr := hv.read_lt
  have hw := hv.write_lt
  have hwr := hv.same hm
  obtain ⟨s, len, hlen, -, heq⟩ := put_force_eq rb ptr length
  rw [← hlen] at hextra
  have hspace := hextra
  rw [hv.space_len, rb.length_content, if_pos hm] at hspace
  have hge : rb.buffer_size ≤ rb.write_index + len := by omega
  rw [heq]
  simp only [hextra, if_true, if_neg (Nat.not_lt.mpr hge), write_of_le hv hge (by omega)]
  have hm' : (!rb.read_mirror) = !rb.write_mirror := by rw [hm]
  refine ⟨⟨hv.size_lt, ?_, ?_, fun _ => le_rfl, fun h => absurd hm' h⟩, trivial, ?_⟩
  · show rb.write_index + len - rb.buffer_size < rb.buffer_size
    omega
  · show rb.write_index + len - rb.buffer_size < rb.buffer_size
    omega
  · rw [content_same (by exact hm'), Nat.sub_self, Bytes.range_zero]

theorem get_fifo (hv : rb.Valid) (ptr : Bytes) (length : Nat) :
    let (rb', ptr', n) := rt_ringbuffer_get rb ptr length
    rb'.Valid ∧ rb'.buffer_size = rb.buffer_size ∧ n = min length rb.content.length ∧
      ptr'.range 0 n = rb.content.take n ∧ rb'.content = rb.content.drop n := by
  rw [rt_ringbuffer_get, hv.data_len]
  by_cases h0 : rb.content.length = 0
  · simp only [h0, if_true]
    refine ⟨hv, by trivial, by omega, ?_, ?_⟩
    · rw [Bytes.range_zero, List.take_zero]
    · rw [List.drop_zero]
  · simp only [h0, if_false]
    have hn : (if rb.content.length < length then rb.content.length else length) =
        min length rb.content.length := by
      split <;> omega
    rw [hn]
    generalize hk : min length rb.content.length = k
    obtain ⟨hv', hc⟩ := content_taken k hv (by omega)
    have ht := take_content ptr k hv (by omega)
    rw [taken] at hv' hc
    by_cases hlt : rb.buffer_size - rb.read_index > k
    · simp only [hlt, if_true] at hv' hc ht ⊢
      exact ⟨hv', by trivial, by trivial, ht.symm, hc⟩
    · simp only [hlt, if_false] at hv' hc ht ⊢
      exact ⟨hv', by trivial, by trivial, ht.symm, hc⟩

theorem blit_one (m : Bytes) (a : Nat) (ch : UInt8) :
    m.blit a (fun _ => ch) 0 1 = Function.update m a ch := by
  funext i
  by_cases hi : i = a
  · subst hi
    simp [Bytes.blit]
  · rw [Function.update_of_ne hi]
    simp only [Bytes.blit]
    rw [if_neg (by omega)]

theorem blit_zero (m : Bytes) (a s : Nat) (src : Bytes) : m.blit a src s 0 = m := by
  funext i
  simp only [Bytes.blit]
  rw [if_neg (by omega)]

/-- One byte is written as a copy of one byte. -/
theorem write_one (hv : rb.Valid) (ch : UInt8) :
    rb.write (fun _ => ch) 0 1 =
      if rb.write_index = rb.buffer_size - 1 then
        { rb with
          buffer_ptr := Function.update rb.buffer_ptr rb.write_index ch
          write_mirror := !rb.write_mirror
          write_index := 0 }
      else
        { rb with
          buffer_ptr := Function.update rb.buffer_ptr rb.write_index ch
          write_index := (rb.write_index + 1) % 2 ^ 15 } := by
  have hw := hv.write_lt
  rw [write]
  by_cases hlast : rb.write_index = rb.buffer_size - 1
  · have hone : rb.buffer_size - rb.write_index = 1 := by omega
    rw [if_neg (by omega), if_pos hlast, hone, Nat.sub_self, blit_one, blit_zero, Nat.zero_mod]
  · rw [if_pos (by omega), if_neg hlast, blit_one]

theorem putchar_eq (hv : rb.Valid) (ch : UInt8) :
    rt_ringbuffer_putchar rb ch = rt_ringbuffer_put rb (fun _ => ch) 1 := by
  rw [rt_ringbuffer_putchar, rt_ringbuffer_put]
  by_cases h0 : rt_ringbuffer_space_len rb = 0
  · rw [if_pos h0]
    simp only [h0, if_true]
  · rw [if_neg h0]
    simp only [h0, if_false]
    rw [if_neg (show ¬rt_ringbuffer_space_len rb < 1 by omega), write_one hv]
    split <;> rfl

theorem full_iff (hv : rb.Valid) :
    rt_ringbuffer_status rb = RT_RINGBUFFER_FULL ↔ rt_ringbuffer_space_len rb = 0 := by
  have hr := hv.read_lt
  have hw := hv.write_lt
  rw [hv.space_len, rb.length_content, rt_ringbuffer_status]
  by_cases hm : rb.read_mirror = rb.write_mirror
  · have := hv.same hm
    by_cases hi : rb.read_index = rb.write_index
    · simp [hm, hi]
      omega
    · simp [hm, hi]
      omega
  · have := hv.other hm
    by_cases hi : rb.read_index = rb.write_index
    · simp [hm, hi]
      omega
    · simp [hm, hi]
      omega

/-- One byte is never more than the pool holds, and runs over the read index only in a full buffer,
where the mirrors differ. -/
theorem putchar_force_eq (hv : rb.Valid) (ch : UInt8) :
    rt_ringbuffer_putchar_force rb ch = rt_ringbuffer_put_force rb (fun _ => ch) 1 := by
  have hw := hv.write_lt
  rw [rt_ringbuffer_putchar_force, rt_ringbuffer_put_force]
  simp only [if_neg (show ¬1 > rb.buffer_size by omega), write_one hv]
  have hfull : rt_ringbuffer_status rb = RT_RINGBUFFER_FULL ↔ 1 > rt_ringbuffer_space_len rb := by
    rw [full_iff hv]
    omega
  by_cases hlast : rb.write_index = rb.buffer_size - 1
  · simp only [hfull, hlast, if_true]
    rw [if_neg (show ¬rb.buffer_size - (rb.buffer_size - 1) > 1 by omega)]
  · simp only [hfull, hlast, if_false]
    rw [if_pos (show rb.buffer_size - rb.write_index > 1 by omega)]

theorem getchar_fifo (hv : rb.Valid) (ch : UInt8) :
    let (rb', ch', n) := rt_ringbuffer_getchar rb ch
    rb'.Valid ∧ rb'.buffer_size = rb.buffer_size ∧ n = min 1 rb.content.length ∧
      [ch'].take n = rb.content.take n ∧ rb'.content = rb.content.drop n := by
  have hr := hv.read_lt
  rw [rt_ringbuffer_getchar, hv.data_len]
  by_cases h0 : rb.content.length = 0
  · simp only [h0, if_true]
    exact ⟨hv, by trivial, by omega, by simp, by simp⟩
  · simp only [h0, if_false]
    obtain ⟨hv', hc⟩ := content_taken 1 hv (by omega)
    have hfirst := take_content (fun _ => ch) 1 hv (by omega)
    rw [taken] at hv' hc
    by_cases hlast : rb.read_index = rb.buffer_size - 1
    · have hone : rb.buffer_size - rb.read_index = 1 := by omega
      rw [if_neg (by omega), hone] at hv' hc hfirst
      simp only [hlast, if_true]
      rw [Nat.sub_self, Nat.zero_mod] at hv' hc
      rw [Nat.sub_self, blit_zero, Bytes.range_blit] at hfirst
      refine ⟨hv', by trivial, by omega, ?_, hc⟩
      rw [hfirst, ← hlast]
      rfl
    · rw [if_pos (by omega)] at hv' hc hfirst
      rw [Bytes.range_blit] at hfirst
      simp only [hlast, if_false]
      refine ⟨hv', by trivial, by omega, ?_, hc⟩
      rw [hfirst]
      rfl

theorem peak_fifo (hv : rb.Valid) :
    let (rb', ptr, n) := rt_ringbuffer_peak rb
    rb'.Valid ∧ rb'.buffer_size = rb.buffer_size ∧ n ≤ rb.content.length ∧
      (rb.content ≠ [] → 0 < n) ∧
      (ptr.map fun p => rb.buffer_ptr.range p n).getD [] = rb.content.take n ∧
      rb'.content = rb.content.drop n := by
  have hr := hv.read_lt
  rw [rt_ringbuffer_peak, hv.data_len]
  by_cases h0 : rb.content.length = 0
  · simp only [h0, if_true]
    exact ⟨hv, by trivial, by omega, fun h => absurd (List.length_eq_zero_iff.mp h0) h, by simp,
      by simp⟩
  · simp only [h0, if_false]
    by_cases hlt : rb.buffer_size - rb.read_index > rb.content.length
    · obtain ⟨hv', hc⟩ := content_taken rb.content.length hv le_rfl
      have hfirst := take_content rb.buffer_ptr rb.content.length hv le_rfl
      rw [taken] at hv' hc
      simp only [hlt, if_true] at hv' hc hfirst ⊢
      rw [Bytes.range_blit] at hfirst
      exact ⟨hv', by trivial, le_rfl, fun _ => by omega, hfirst.symm, hc⟩
    · have hle : rb.buffer_size - rb.read_index ≤ rb.content.length := by omega
      obtain ⟨hv', hc⟩ := content_taken (rb.buffer_size - rb.read_index) hv hle
      have hfirst := take_content rb.buffer_ptr _ hv hle
      rw [taken, if_neg (lt_irrefl _), Nat.sub_self, Nat.zero_mod] at hv' hc
      rw [if_neg (lt_irrefl _), Nat.sub_self, blit_zero, Bytes.range_blit] at hfirst
      simp only [hlt, if_false]
      exact ⟨hv', by trivial, hle, fun _ => by omega, hfirst.symm, hc⟩

theorem reset_valid (hv : rb.Valid) :
    (rt_ringbuffer_reset rb).Valid ∧ (rt_ringbuffer_reset rb).content = [] := by
  have hr := hv.read_lt
  refine ⟨⟨hv.size_lt, by show 0 < rb.buffer_size; omega, by show 0 < rb.buffer_size; omega,
    fun _ => le_rfl, fun h => absurd rfl h⟩, ?_⟩
  rw [content_same rfl]
  rfl

end RingBuffer

/-! ### Runs -/

/-- A ring buffer from its initialisation on, under any operations.  `rt_ringbuffer_init` takes a
size of 16 signed bits; the size rounded down must leave room for a byte. -/
def ringBuffer : Machine RingBuffer RingBufferOp where
  start rb := ∃ pool size, 0 < size / 8 * 8 ∧ size < 2 ^ 15 ∧ rb = rt_ringbuffer_init pool size
  step rb o rb' := rb' = (o.run rb).1

theorem rt_ringbuffer_init_valid {pool : Bytes} {size : Nat} (h0 : 0 < size / 8 * 8)
    (hlt : size < 2 ^ 15) : (rt_ringbuffer_init pool size).Valid :=
  ⟨by show size / 8 * 8 < 2 ^ 15; omega, h0, h0, fun _ => le_rfl, fun h => absurd rfl h⟩

namespace RingBufferOp

/-- One operation keeps the buffer valid, and acts on the contents as on a bounded queue unless it
overruns. -/
theorem run_spec {rb : RingBuffer} (hv : rb.Valid) (o : RingBufferOp) :
    (o.run rb).1.Valid ∧ (o.run rb).1.buffer_size = rb.buffer_size ∧
      (¬o.Overruns rb →
        o.Fifo rb.buffer_size rb.content (o.run rb).1.content (o.run rb).2.1 (o.run rb).2.2) := by
  cases o with
  | put ptr length =>
    obtain ⟨hv', hsize, hn, hc⟩ := RingBuffer.put_fifo hv ptr length.toNat
    exact ⟨hv', hsize, fun _ => ⟨hn, hc, rfl⟩⟩
  | put_force ptr length =>
    by_cases hextra : (put_force ptr length).Overruns rb
    · obtain ⟨hv', hsize, -⟩ := RingBuffer.put_force_overrun hv ptr length.toNat hextra.1 hextra.2
      exact ⟨hv', hsize, fun h => absurd hextra h⟩
    · obtain ⟨hv', hsize, hn, hc⟩ := RingBuffer.put_force_fifo hv ptr length.toNat hextra
      exact ⟨hv', hsize, fun _ => ⟨hn, hc, rfl⟩⟩
  | putchar ch =>
    have hput := RingBuffer.put_fifo hv (fun _ => ch) 1
    rw [← RingBuffer.putchar_eq hv ch] at hput
    obtain ⟨hv', hsize, hn, hc⟩ := hput
    refine ⟨hv', hsize, fun _ => ⟨hn, ?_, rfl⟩⟩
    rw [← Bytes.take_range (n := 1) (by rw [hn]; omega)] at hc
    exact hc
  | putchar_force ch =>
    have hw := hv.write_lt
    have hok : ¬(rb.read_mirror = rb.write_mirror ∧
        rt_ringbuffer_space_len rb < min 1 rb.buffer_size) := by
      rintro ⟨hm, hlt⟩
      have := hv.same hm
      rw [hv.space_len, rb.length_content, if_pos hm] at hlt
      omega
    have hput := RingBuffer.put_force_fifo hv (fun _ => ch) 1 hok
    rw [← RingBuffer.putchar_force_eq hv ch] at hput
    obtain ⟨hv', hsize, hn, hc⟩ := hput
    exact ⟨hv', hsize, fun _ => ⟨hn.trans (by omega), hc, rfl⟩⟩
  | get ptr length =>
    obtain ⟨hv', hsize, hn, hbytes, hc⟩ := RingBuffer.get_fifo hv ptr length.toNat
    exact ⟨hv', hsize, fun _ => ⟨hn, hbytes, hc⟩⟩
  | getchar ch =>
    obtain ⟨hv', hsize, hn, hbytes, hc⟩ := RingBuffer.getchar_fifo hv ch
    exact ⟨hv', hsize, fun _ => ⟨hn, hbytes, hc⟩⟩
  | peak =>
    obtain ⟨hv', hsize, hn, hpos, hbytes, hc⟩ := RingBuffer.peak_fifo hv
    exact ⟨hv', hsize, fun _ => ⟨hn, hpos, hbytes, hc⟩⟩
  | reset =>
    obtain ⟨hv', hc⟩ := RingBuffer.reset_valid hv
    exact ⟨hv', rfl, fun _ => ⟨hc, rfl⟩⟩

/-- An overrun empties the buffer, which a bounded queue does not. -/
theorem Overruns.not_fifo {rb : RingBuffer} {o : RingBufferOp} (hv : rb.Valid)
    (h : o.Overruns rb) :
    ¬o.Fifo rb.buffer_size rb.content (o.run rb).1.content (o.run rb).2.1 (o.run rb).2.2 := by
  cases o with
  | put_force ptr length =>
    obtain ⟨hm, hextra⟩ := h
    obtain ⟨-, -, hc⟩ := RingBuffer.put_force_overrun hv ptr length.toNat hm hextra
    rintro ⟨-, hq, -⟩
    have hlen := congrArg List.length (hc.symm.trans hq)
    have hw := hv.write_lt
    rw [List.rtake, List.length_drop, List.length_append, Bytes.length_range,
      List.length_nil] at hlen
    omega
  | _ => exact h.elim

end RingBufferOp

theorem ringBuffer_valid {rb : RingBuffer} (h : ringBuffer.Reachable rb) : rb.Valid := by
  apply h.invariant
  · rintro _ ⟨pool, size, h0, hlt, rfl⟩
    exact rt_ringbuffer_init_valid h0 hlt
  · rintro rb o _ _ hv rfl
    exact (o.run_spec hv).1

/-- The ring buffer refines a bounded queue of bytes: in every state that operations lead to, the
next one acts on the contents as on a queue, exactly when it is no overrun. -/
theorem ringBuffer_refines_fifo {rb : RingBuffer} (h : ringBuffer.Reachable rb)
    (o : RingBufferOp) :
    rt_ringbuffer_data_len rb = rb.content.length ∧
      (o.run rb).1.buffer_size = rb.buffer_size ∧
      (o.Fifo rb.buffer_size rb.content (o.run rb).1.content (o.run rb).2.1 (o.run rb).2.2 ↔
        ¬o.Overruns rb) := by
  have hv := ringBuffer_valid h
  obtain ⟨-, hsize, hfifo⟩ := o.run_spec hv
  exact ⟨hv.data_len, hsize, fun h hextra => hextra.not_fifo hv h, hfifo⟩

/-- A pool of eight bytes after four bytes are put. -/
def halfFull : RingBuffer :=
  (RingBufferOp.run (rt_ringbuffer_init (fun _ => 0) 8) (.put (fun i => UInt8.ofNat i) 4)).1

theorem halfFull_reachable : ringBuffer.Reachable halfFull := by
  have hstart : ringBuffer.start (rt_ringbuffer_init (fun _ => 0) 8) :=
    ⟨_, 8, by decide, by decide, rfl⟩
  exact (Machine.Reachable.start hstart).next (l := .put (fun i => UInt8.ofNat i) 4) rfl

theorem halfFull_getchar :
    (RingBufferOp.getchar 0).Fifo 8 halfFull.content ((RingBufferOp.getchar 0).run halfFull).1.content
      1 [0] :=
  (ringBuffer_refines_fifo halfFull_reachable (.getchar 0)).2.2.mpr (fun h => h)

/-- Six bytes forced into a pool of eight that holds four leave it empty. -/
theorem ringBuffer_overrun :
    ∃ rb o, ringBuffer.Reachable rb ∧ rb.content = [0, 1, 2, 3] ∧
      ((RingBufferOp.run rb o).1.content = [] ∧
        o = .put_force (fun i => UInt8.ofNat (i + 10)) 6) ∧
      ¬o.Fifo rb.buffer_size rb.content (o.run rb).1.content (o.run rb).2.1 (o.run rb).2.2 := by
  refine ⟨halfFull, _, halfFull_reachable, by decide, ⟨by decide, rfl⟩, ?_⟩
  rintro ⟨-, hq, -⟩
  revert hq
  decide

end Ab32Vg1.Drivers
