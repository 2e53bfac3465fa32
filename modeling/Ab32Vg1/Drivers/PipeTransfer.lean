import Ab32Vg1.Drivers.PipeRun
import Ab32Vg1.ProofKit.Fuel

/-! The device side of `pipe.c`: `rt_pipe_write` and `rt_pipe_read` move bytes until the ring buffer
takes or gives no more.  Their counts have 32 bits, those of the ring buffer 16. -/

namespace Ab32Vg1.Drivers

open ProofKit Kernel

namespace PipeDevice

/-- `rt_pipe_open` and the code that it returns. -/
def rt_pipe_open (pipe : PipeDevice) (pool : Option Bytes) : Option (PipeDevice × Int) := do
  if pipe.fifo.isSome then return (pipe, 0)
  else
    let fifo ← rt_ringbuffer_create pipe.bufsz pool
    return ({ pipe with fifo := fifo }, if fifo.isSome then 0 else - RT_ENOMEM)

/-- The loop of `rt_pipe_write`. -/
def writeLoop (buffer : Bytes) (count : Nat) :
    (fuel : Nat) → (fifo : RingBuffer) → (write_bytes : Nat) → Option (RingBuffer × Nat)
  | 0, _, _ => none
  | fuel + 1, fifo, write_bytes =>
    if write_bytes < count then
      let (fifo, len) :=
        rt_ringbuffer_put fifo (fun i => buffer (write_bytes + i)) ((count - write_bytes) % 2 ^ 16)
      if len = 0 then some (fifo, write_bytes)
      else writeLoop buffer count fuel fifo (write_bytes + len)
    else some (fifo, write_bytes)

/-- `rt_pipe_write` and the count that it returns. -/
def rt_pipe_write (fuel : Nat) (pipe : PipeDevice) (buffer : Bytes) (count : Nat) :
    Option (PipeDevice × Nat) :=
  if count = 0 then some (pipe, 0)
  else do
    let fifo ← pipe.fifo
    let (fifo, write_bytes) ← writeLoop buffer count fuel fifo 0
    return ({ pipe with fifo := some fifo }, write_bytes)

/-- The loop of `rt_pipe_read`, with the memory at `buffer`. -/
def readLoop (count : Nat) :
    (fuel : Nat) → (fifo : RingBuffer) → (buffer : Bytes) → (read_bytes : Nat) →
      Option (RingBuffer × Bytes × Nat)
  | 0, _, _, _ => none
  | fuel + 1, fifo, buffer, read_bytes =>
    if read_bytes < count then
      let (fifo, pbuf, len) :=
        rt_ringbuffer_get fifo (fun i => buffer (read_bytes + i)) ((count - read_bytes) % 2 ^ 16)
      let buffer := buffer.blit read_bytes pbuf 0 len
      if len = 0 then some (fifo, buffer, read_bytes)
      else readLoop count fuel fifo buffer (read_bytes + len)
    else some (fifo, buffer, read_bytes)

/-- `rt_pipe_read`, the memory at `buffer` and the count that it returns. -/
def rt_pipe_read (fuel : Nat) (pipe : PipeDevice) (buffer : Bytes) (count : Nat) :
    Option (PipeDevice × Bytes × Nat) :=
  if count = 0 then some (pipe, buffer, 0)
  else do
    let fifo ← pipe.fifo
    let (fifo, buffer, read_bytes) ← readLoop count fuel fifo buffer 0
    return ({ pipe with fifo := some fifo }, buffer, read_bytes)

/-- The bytes that the ring buffer has room for. -/
def room (pipe : PipeDevice) : Nat :=
  match pipe.fifo with
  | some fifo => fifo.buffer_size - fifo.content.length
  | none => 0

end PipeDevice

/-! ### The machine -/

/-- An open pipe device, the bytes that writes have accepted and those that reads have returned. -/
structure PipeTransfer where
  pipe : PipeDevice
  accepted : List UInt8
  delivered : List UInt8

inductive PipeTransferStep where
  | write (buffer : Bytes) (count : Nat)
  | read (buffer : Bytes) (count : Nat)

namespace PipeTransfer

def step (fuel : Nat) (c : PipeTransfer) : PipeTransferStep → Option PipeTransfer
  | .write buffer count =>
    (c.pipe.rt_pipe_write fuel buffer count).map fun (pipe, n) =>
      { c with pipe := pipe, accepted := c.accepted ++ buffer.range 0 n }
  | .read buffer count =>
    (c.pipe.rt_pipe_read fuel buffer count).map fun (pipe, buffer, n) =>
      { c with pipe := pipe, delivered := c.delivered ++ buffer.range 0 n }

/-- A pipe of some size that was just opened. -/
structure Fresh (c : PipeTransfer) : Prop where
  opened : ∃ is_named bufsz pool,
    (PipeDevice.rt_pipe_create is_named bufsz).rt_pipe_open (some pool) = some (c.pipe, 0)
  accepted : c.accepted = []
  delivered : c.delivered = []

end PipeTransfer

def pipeTransfers : Machine PipeTransfer PipeTransferStep where
  start := PipeTransfer.Fresh
  step c l c' := ∃ fuel, c.step fuel l = some c'

/-- A write takes as many of the bytes as there is room for. -/
def WritesMost (pipe : PipeDevice) (buffer : Bytes) (count : Nat) : Prop :=
  ∃ n, Returns (fun fuel => pipe.rt_pipe_write fuel buffer count) n fun r =>
    r.2 = min count pipe.room ∧ r.1.content = pipe.content ++ buffer.range 0 (min count pipe.room)

/-- A read returns as many of the oldest bytes as there are. -/
def ReadsMost (pipe : PipeDevice) (buffer : Bytes) (count : Nat) : Prop :=
  ∃ n, Returns (fun fuel => pipe.rt_pipe_read fuel buffer count) n fun r =>
    r.2.2 = min count pipe.content.length ∧
      r.2.1.range 0 (min count pipe.content.length) = pipe.content.take count ∧
      r.1.content = pipe.content.drop count

/-- A count that is less than 65536, or is not too small modulo 65536 for the `limit`. -/
def CountFits (count limit : Nat) : Prop := count < 65536 ∨ limit ≤ count % 65536

namespace PipeDevice

variable {fifo : RingBuffer} {pipe pipe' : PipeDevice} {buffer : Bytes} {count n : Nat}

/-! ### One call -/

theorem put_spec {ptr : Bytes} {length : Nat} {fifo' : RingBuffer} (hv : fifo.Valid)
    (h : rt_ringbuffer_put fifo ptr length = (fifo', n)) :
    fifo'.Valid ∧ fifo'.buffer_size = fifo.buffer_size ∧
      n = min length (fifo.buffer_size - fifo.content.length) ∧
      fifo'.content = fifo.content ++ ptr.range 0 n := by
  have hput := RingBuffer.put_fifo hv ptr length
  rw [h] at hput
  exact hput

theorem get_spec {ptr ptr' : Bytes} {length : Nat} {fifo' : RingBuffer} (hv : fifo.Valid)
    (h : rt_ringbuffer_get fifo ptr length = (fifo', ptr', n)) :
    fifo'.Valid ∧ n = min length fifo.content.length ∧
      ptr'.range 0 n = fifo.content.take n ∧ fifo'.content = fifo.content.drop n := by
  have hget := RingBuffer.get_fifo hv ptr length
  rw [h] at hget
  exact ⟨hget.1, hget.2.2⟩

theorem range_shift (m : Bytes) (k n : Nat) :
    Bytes.range (fun i => m (k + i)) 0 n = m.range k n :=
  List.map_congr_left fun i _ => by rw [Nat.zero_add]

/-- The bytes in `r.1` after a write that returns `r.2`. -/
structure Wrote (fifo : RingBuffer) (buffer : Bytes) (count : Nat) (r : RingBuffer × Nat) : Prop where
  valid : r.1.Valid
  count_eq : r.2 = min (count % 65536) (fifo.buffer_size - fifo.content.length)
  content : r.1.content = fifo.content ++ buffer.range 0 r.2

/-- The first turn moves the count modulo 65536, or what there is room for; the second finds no room,
or a multiple of 65536 left over, and moves nothing. -/
theorem writeLoop_returns (hv : fifo.Valid) (buffer : Bytes) (hpos : 0 < count) :
    ∃ N, Returns (fun fuel => writeLoop buffer count fuel fifo 0) N (Wrote fifo buffer count) := by
  have hsize := hv.size_lt
  rcases hput : rt_ringbuffer_put fifo (fun i => buffer (0 + i)) ((count - 0) % 2 ^ 16) with ⟨fifo1, len⟩
  obtain ⟨hv1, hsize1, hlen, hcontent⟩ := put_spec hv hput
  rw [range_shift] at hcontent
  rw [Nat.sub_zero] at hlen
  have hturn (fuel : Nat) : writeLoop buffer count (fuel + 1) fifo 0 =
      if len = 0 then some (fifo1, 0) else writeLoop buffer count fuel fifo1 (0 + len) := by
    rw [writeLoop, if_pos hpos, hput]
  by_cases hzero : len = 0
  · have hnone : Wrote fifo buffer count (fifo1, 0) := ⟨hv1, by omega, by rw [hcontent, hzero]⟩
    exact ⟨0, .stop rfl (fun k => by rw [hturn, if_pos hzero]) hnone⟩
  · refine ⟨1, .step rfl (fun k => by rw [hturn, if_neg hzero]) ?_⟩
    rw [Nat.zero_add]
    by_cases hdone : len < count
    · rcases hput2 : rt_ringbuffer_put fifo1 (fun i => buffer (len + i)) ((count - len) % 2 ^ 16) with
        ⟨fifo2, len2⟩
      obtain ⟨hv2, -, hlen2, hcontent2⟩ := put_spec hv1 hput2
      have hlength : fifo1.content.length = fifo.content.length + len := by
        rw [hcontent, List.length_append, Bytes.length_range]
      have hzero2 : len2 = 0 := by omega
      have hsame : Wrote fifo buffer count (fifo2, len) := by
        refine ⟨hv2, hlen, ?_⟩
        rw [hcontent2, hzero2, Bytes.range_zero, List.append_nil, hcontent]
      refine .stop rfl (fun k => ?_) hsame
      rw [writeLoop, if_pos hdone, hput2]
      exact if_pos hzero2
    · have hall : Wrote fifo buffer count (fifo1, len) := ⟨hv1, hlen, hcontent⟩
      refine .stop rfl (fun k => ?_) hall
      rw [writeLoop, if_neg hdone]

/-- The bytes at `buffer` and in `r.1` after a read that returns `r.2.2`. -/
structure Got (fifo : RingBuffer) (count : Nat) (r : RingBuffer × Bytes × Nat) : Prop where
  valid : r.1.Valid
  count_eq : r.2.2 = min (count % 65536) fifo.content.length
  bytes : r.2.1.range 0 r.2.2 = fifo.content.take r.2.2
  content : r.1.content = fifo.content.drop r.2.2

theorem readLoop_returns (hv : fifo.Valid) (buffer : Bytes) (hpos : 0 < count) :
    ∃ N, Returns (fun fuel => readLoop count fuel fifo buffer 0) N (Got fifo count) := by
  have hsize := hv.size_lt
  have hle := hv.length_le
  rcases hget : rt_ringbuffer_get fifo (fun i => buffer (0 + i)) ((count - 0) % 2 ^ 16) with
    ⟨fifo1, pbuf, len⟩
  obtain ⟨hv1, hlen, hbytes, hcontent⟩ := get_spec hv hget
  rw [Nat.sub_zero] at hlen
  have hstored : (buffer.blit 0 pbuf 0 len).range 0 len = fifo.content.take len := by
    rw [Bytes.range_blit, hbytes]
  have hturn (fuel : Nat) : readLoop count (fuel + 1) fifo buffer 0 =
      if len = 0 then some (fifo1, buffer.blit 0 pbuf 0 len, 0)
      else readLoop count fuel fifo1 (buffer.blit 0 pbuf 0 len) (0 + len) := by
    rw [readLoop, if_pos hpos, hget]
  by_cases hzero : len = 0
  · have hnone : Got fifo count (fifo1, buffer.blit 0 pbuf 0 len, 0) :=
      ⟨hv1, hzero.symm.trans hlen, rfl, by rw [hcontent, hzero]⟩
    exact ⟨0, .stop rfl (fun k => by rw [hturn, if_pos hzero]) hnone⟩
  · refine ⟨1, .step rfl (fun k => by rw [hturn, if_neg hzero]) ?_⟩
    rw [Nat.zero_add]
    generalize hbuffer : buffer.blit 0 pbuf 0 len = buffer1 at hstored
    by_cases hdone : len < count
    · rcases hget2 : rt_ringbuffer_get fifo1 (fun i => buffer1 (len + i)) ((count - len) % 2 ^ 16) with
        ⟨fifo2, pbuf2, len2⟩
      obtain ⟨hv2, hlen2, -, hcontent2⟩ := get_spec hv1 hget2
      have hlength : fifo1.content.length = fifo.content.length - len := by
        rw [hcontent, List.length_drop]
      have hzero2 : len2 = 0 := by omega
      have hsame : Got fifo count (fifo2, buffer1.blit len pbuf2 0 len2, len) := by
        refine ⟨hv2, hlen, ?_, ?_⟩
        · rw [hzero2, RingBuffer.blit_zero, hstored]
        · rw [hcontent2, hzero2, List.drop_zero, hcontent]
      refine .stop rfl (fun k => ?_) hsame
      rw [readLoop, if_pos hdone, hget2]
      exact if_pos hzero2
    · have hall : Got fifo count (fifo1, buffer1, len) := ⟨hv1, hlen, hstored, hcontent⟩
      refine .stop rfl (fun k => ?_) hall
      rw [readLoop, if_neg hdone]

/-- A pipe that is open, with a ring buffer in order. -/
def Open (pipe : PipeDevice) : Prop := ∃ fifo, pipe.fifo = some fifo ∧ fifo.Valid

theorem Open.room_lt (h : pipe.Open) : pipe.room < 2 ^ 15 := by
  obtain ⟨fifo, hfifo, hv⟩ := h
  have hsize := hv.size_lt
  rw [room, hfifo]
  show fifo.buffer_size - fifo.content.length < 2 ^ 15
  omega

theorem Open.length_lt (h : pipe.Open) : pipe.content.length < 2 ^ 15 := by
  obtain ⟨fifo, hfifo, hv⟩ := h
  have hsize := hv.size_lt
  have hle := hv.length_le
  rw [PipeDevice.content, hfifo]
  show fifo.content.length < 2 ^ 15
  omega

/-- A write takes the first bytes of the buffer, as many as there is room for among the count modulo
65536. -/
theorem Open.write (h : pipe.Open) (buffer : Bytes) (count : Nat) :
    ∃ N, Returns (fun fuel => pipe.rt_pipe_write fuel buffer count) N fun r =>
      r.1.Open ∧ r.2 = min (count % 65536) pipe.room ∧
        r.1.content = pipe.content ++ buffer.range 0 r.2 := by
  obtain ⟨fifo, hfifo, hv⟩ := h
  have hroom : pipe.room = fifo.buffer_size - fifo.content.length := by rw [room, hfifo]
  have hcontent : pipe.content = fifo.content := by rw [PipeDevice.content, hfifo]
  rw [hroom, hcontent]
  by_cases hzero : count = 0
  · refine ⟨0, ?_⟩
    simp only [rt_pipe_write, if_pos hzero]
    refine .const ⟨⟨fifo, hfifo, hv⟩, by omega, ?_⟩
    rw [Bytes.range_zero, List.append_nil, hcontent]
  · obtain ⟨N, hN⟩ := writeLoop_returns hv buffer (Nat.pos_of_ne_zero hzero)
    refine ⟨N, ?_⟩
    simp only [rt_pipe_write, if_neg hzero, hfifo, Option.bind_eq_bind, Option.bind_some]
    exact hN.bind fun r hr => .const ⟨⟨r.1, rfl, hr.valid⟩, hr.count_eq, hr.content⟩

theorem Open.read (h : pipe.Open) (buffer : Bytes) (count : Nat) :
    ∃ N, Returns (fun fuel => pipe.rt_pipe_read fuel buffer count) N fun r =>
      r.1.Open ∧ r.2.2 = min (count % 65536) pipe.content.length ∧
        r.2.1.range 0 r.2.2 = pipe.content.take r.2.2 ∧ r.1.content = pipe.content.drop r.2.2 := by
  obtain ⟨fifo, hfifo, hv⟩ := h
  have hcontent : pipe.content = fifo.content := by rw [PipeDevice.content, hfifo]
  rw [hcontent]
  by_cases hzero : count = 0
  · refine ⟨0, ?_⟩
    simp only [rt_pipe_read, if_pos hzero]
    exact .const ⟨⟨fifo, hfifo, hv⟩, by simp [hzero], rfl, hcontent⟩
  · obtain ⟨N, hN⟩ := readLoop_returns hv buffer (Nat.pos_of_ne_zero hzero)
    refine ⟨N, ?_⟩
    simp only [rt_pipe_read, if_neg hzero, hfifo, Option.bind_eq_bind, Option.bind_some]
    exact hN.bind fun r hr => .const ⟨⟨r.1, rfl, hr.valid⟩, hr.count_eq, hr.bytes, hr.content⟩

/-- The count modulo 65536 is enough just where it fits. -/
theorem min_mod_iff {limit : Nat} (hlimit : limit < 2 ^ 15) :
    min (count % 65536) limit = min count limit ↔ CountFits count limit := by
  unfold CountFits
  omega

theorem Open.writesMost_iff (h : pipe.Open) : WritesMost pipe buffer count ↔ CountFits count pipe.room := by
  obtain ⟨N, hN⟩ := h.write buffer count
  rw [← min_mod_iff h.room_lt]
  constructor
  · rintro ⟨M, hM⟩
    obtain ⟨r, hr⟩ := hN.total (Nat.lt_succ_self N)
    rw [← (hN.post hr).2.1, (hM.post hr).1]
  · intro heq
    refine ⟨N, hN.weaken fun r hr => ?_⟩
    rw [heq] at hr
    exact ⟨hr.2.1, hr.2.1 ▸ hr.2.2⟩

theorem take_min {l : List UInt8} : l.take (min count l.length) = l.take count :=
  List.take_eq_take_iff.mpr (by omega)

theorem drop_min {l : List UInt8} : l.drop (min count l.length) = l.drop count := by
  rcases Nat.le_total count l.length with hle | hle
  · rw [Nat.min_eq_left hle]
  · rw [Nat.min_eq_right hle, List.drop_length, List.drop_eq_nil_of_le hle]

theorem Open.readsMost_iff (h : pipe.Open) :
    ReadsMost pipe buffer count ↔ CountFits count pipe.content.length := by
  obtain ⟨N, hN⟩ := h.read buffer count
  rw [← min_mod_iff h.length_lt]
  constructor
  · rintro ⟨M, hM⟩
    obtain ⟨r, hr⟩ := hN.total (Nat.lt_succ_self N)
    rw [← (hN.post hr).2.1, (hM.post hr).1]
  · intro heq
    refine ⟨N, hN.weaken fun r hr => ?_⟩
    rw [heq] at hr
    obtain ⟨-, hn, hbytes, hcontent⟩ := hr
    rw [hn] at hbytes hcontent
    exact ⟨hn, hbytes.trans take_min, hcontent.trans drop_min⟩

theorem create_open {bufsz : Nat} {is_named : Bool} {pool : Bytes}
    (h : (rt_pipe_create is_named bufsz).rt_pipe_open (some pool) = some (pipe, 0)) :
    pipe.Open ∧ pipe.content = [] := by
  simp only [rt_pipe_open, rt_pipe_create, Option.isSome_none, Bool.false_eq_true, if_false] at h
  obtain ⟨fifo, hfifo, h⟩ := Option.bind_eq_some_iff.mp h
  obtain ⟨rfl, hcode⟩ := Prod.mk.inj (Option.some.inj h)
  cases fifo with
  | none => cases hcode
  | some fifo =>
    obtain ⟨hv, hcontent⟩ := PipeSystem.create_valid hfifo fifo rfl
    exact ⟨⟨fifo, rfl, hv⟩, hcontent⟩

end PipeDevice

/-! ### Runs -/

namespace PipeTransfer

/-- The pipe is open, and holds the bytes that were accepted and not yet returned. -/
structure Inv (c : PipeTransfer) : Prop where
  opened : c.pipe.Open
  order : c.delivered ++ c.pipe.content = c.accepted

theorem Fresh.inv {c : PipeTransfer} (h : Fresh c) : c.Inv := by
  obtain ⟨is_named, bufsz, pool, hopen⟩ := h.opened
  obtain ⟨ho, hcontent⟩ := PipeDevice.create_open hopen
  exact ⟨ho, by rw [hcontent, h.accepted, h.delivered]; rfl⟩

theorem Inv.step {c c' : PipeTransfer} {l : PipeTransferStep} {fuel : Nat} (h : c.Inv)
    (hs : c.step fuel l = some c') : c'.Inv := by
  cases l with
  | write buffer count =>
    obtain ⟨N, hN⟩ := h.opened.write buffer count
    obtain ⟨r, hr, rfl⟩ := Option.map_eq_some_iff.mp hs
    obtain ⟨ho, -, hcontent⟩ := hN.post hr
    refine ⟨ho, ?_⟩
    show c.delivered ++ r.1.content = c.accepted ++ buffer.range 0 r.2
    rw [hcontent, ← List.append_assoc, h.order]
  | read buffer count =>
    obtain ⟨N, hN⟩ := h.opened.read buffer count
    obtain ⟨r, hr, rfl⟩ := Option.map_eq_some_iff.mp hs
    obtain ⟨ho, -, hbytes, hcontent⟩ := hN.post hr
    refine ⟨ho, ?_⟩
    show c.delivered ++ r.2.1.range 0 r.2.2 ++ r.1.content = c.accepted
    rw [hbytes, hcontent, List.append_assoc, List.take_append_drop, h.order]

theorem reachable_inv {c : PipeTransfer} (hr : pipeTransfers.Reachable c) : c.Inv :=
  hr.invariant (fun _ h0 => h0.inv) fun _ _ _ _ h ⟨_, hs⟩ => h.step hs

end PipeTransfer

/-- In every run the bytes read are those accepted, in order; a call moves all that it can just where
its count fits. -/
theorem pipe_transfer {c : PipeTransfer} (hr : pipeTransfers.Reachable c) :
    c.delivered ++ c.pipe.content = c.accepted ∧
      (∀ buffer count, WritesMost c.pipe buffer count ↔ CountFits count c.pipe.room) ∧
      ∀ buffer count, ReadsMost c.pipe buffer count ↔ CountFits count c.pipe.content.length := by
  have hinv := PipeTransfer.reachable_inv hr
  exact ⟨hinv.order, fun _ _ => hinv.opened.writesMost_iff, fun _ _ => hinv.opened.readsMost_iff⟩

/-- A pipe of 16 bytes, open and empty. -/
def openedPipe : PipeTransfer where
  pipe :=
    { PipeDevice.rt_pipe_create true 16 with
      fifo := some (rt_ringbuffer_init (fun _ => 0) 16) }
  accepted := []
  delivered := []

theorem openedPipe_fresh : openedPipe.Fresh := ⟨⟨true, 16, fun _ => 0, rfl⟩, rfl, rfl⟩

theorem pipe_transfer_opened :
    WritesMost openedPipe.pipe (fun _ => 1) 40 ∧ ReadsMost openedPipe.pipe (fun _ => 0) 40 := by
  obtain ⟨-, hwrite, hread⟩ := pipe_transfer (.start openedPipe_fresh)
  exact ⟨(hwrite _ 40).mpr (.inl (by decide)), (hread _ 40).mpr (.inl (by decide))⟩

/-- A write of 65536 bytes into an empty pipe takes none of them. -/
theorem pipe_transfer_nothing :
    ¬ ∀ c, pipeTransfers.Reachable c → ∀ buffer count, WritesMost c.pipe buffer count := by
  intro h
  obtain ⟨N, hN⟩ := h openedPipe (.start openedPipe_fresh) (fun _ => 1) 65536
  have hrun : openedPipe.pipe.rt_pipe_write (N + 1) (fun _ => 1) 65536 = some (openedPipe.pipe, 0) := rfl
  have hcount := (hN.post hrun).1
  revert hcount
  decide

end Ab32Vg1.Drivers
