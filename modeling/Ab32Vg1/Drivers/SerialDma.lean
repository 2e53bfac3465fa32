import Ab32Vg1.Drivers.Usart

/-! The receive FIFO of `serial.c` in DMA mode.  The DMA writes a run of bytes into the buffer, then
`rt_dma_recv_update_put_index` moves the put index; `_serial_dma_rx` copies bytes out. -/

namespace Ab32Vg1.Drivers

open Kernel ProofKit

section

variable {α : Type}

/-- `_serial_fifo_calc_recved_len`. -/
def serial_fifo_calc_recved_len (cfg : SerialConfig) (f : RxFifo α) : Nat :=
  if f.put_index = f.get_index then if f.is_full = false then 0 else cfg.bufsz
  else if f.put_index > f.get_index then f.put_index - f.get_index
  else cfg.bufsz - (f.get_index - f.put_index)

def rt_dma_recv_update_get_index (cfg : SerialConfig) (len : Nat) (f : RxFifo α) :
    Option (RxFifo α) := do
  RT_ASSERT (len ≤ serial_fifo_calc_recved_len cfg f)
  let get_index := (f.get_index + len) % 2 ^ 16
  return { f with
    is_full := if f.is_full = true ∧ len ≠ 0 then false else f.is_full
    get_index := if get_index ≥ cfg.bufsz then get_index % cfg.bufsz else get_index }

/-- The put index in `rt_dma_recv_update_put_index`, and whether the get index is overwritten. -/
def movePutIndex (cfg : SerialConfig) (len : Nat) (f : RxFifo α) : RxFifo α :=
  let put_index := (f.put_index + len) % 2 ^ 16
  if f.get_index ≤ f.put_index then
    if put_index ≥ cfg.bufsz then
      let put_index := put_index % cfg.bufsz
      if put_index ≥ f.get_index then { f with put_index := put_index, is_full := true }
      else { f with put_index := put_index }
    else { f with put_index := put_index }
  else if put_index ≥ f.get_index then
    let put_index := if put_index ≥ cfg.bufsz then put_index % cfg.bufsz else put_index
    { f with put_index := put_index, is_full := true }
  else { f with put_index := put_index }

def rt_dma_recv_update_put_index (cfg : SerialConfig) (len : Nat) (f : RxFifo α) : RxFifo α :=
  let f := movePutIndex cfg len f
  if f.is_full = true then { f with get_index := f.put_index } else f

/-- `rt_memcpy` of `count` bytes of the buffer, none where they are not all inside it. -/
def RxFifo.copyOut (cfg : SerialConfig) (f : RxFifo α) (start count : Nat) : Option (List α) :=
  if start + count ≤ cfg.bufsz then some ((List.range count).map fun i => f.buffer (start + i))
  else none

/-- What `_serial_dma_rx` copies to `data`, in one piece or in two. -/
def RxFifo.copyData (cfg : SerialConfig) (f : RxFifo α) (recv_len : Nat) : Option (List α) :=
  if add32 f.get_index recv_len < cfg.bufsz then f.copyOut cfg f.get_index recv_len
  else do
    let first ← f.copyOut cfg f.get_index (sub32 cfg.bufsz f.get_index)
    let second ← f.copyOut cfg 0 (sub32 (add32 recv_len f.get_index) cfg.bufsz)
    return first ++ second

/-- `_serial_dma_rx` with a FIFO: the bytes at `data`, the count returned and the FIFO.  `length` is
an `int`. -/
def serial_dma_rx (cfg : SerialConfig) (length : Int) (f : RxFifo α) :
    Option (List α × Nat × RxFifo α) := do
  let fifo_recved_len := serial_fifo_calc_recved_len cfg f
  let recv_len :=
    if length < fifo_recved_len then (length % 2 ^ 32).toNat else fifo_recved_len
  let data ← f.copyData cfg recv_len
  let f ← rt_dma_recv_update_get_index cfg recv_len f
  return (data, recv_len, f)

/-! ### The machine -/

/-- A FIFO and the bytes that came and were not read, without those that were overwritten. -/
structure DmaReceive (α : Type) where
  fifo : RxFifo α
  unread : List α

inductive DmaStep (α : Type) where
  | received (bytes : List α)
  | read (length : Int)

namespace DmaReceive

variable (cfg : SerialConfig)

/-- The DMA writes the bytes from the put index on, and the interrupt moves the put index. -/
def received (c : DmaReceive α) (bytes : List α) : DmaReceive α where
  fifo := rt_dma_recv_update_put_index cfg bytes.length
    { c.fifo with buffer := Ring.writeAll cfg.bufsz bytes c.fifo.buffer c.fifo.put_index }
  unread := lastOf cfg.bufsz (c.unread ++ bytes)

def step (c : DmaReceive α) : DmaStep α → Option (DmaReceive α)
  | .received bytes => if bytes.length ≤ cfg.bufsz then some (c.received cfg bytes) else none
  | .read length =>
    (serial_dma_rx cfg length c.fifo).map fun r => ⟨r.2.2, c.unread.drop length.toNat⟩

/-- As `rt_serial_open` leaves the FIFO. -/
structure Fresh (c : DmaReceive α) : Prop where
  put_index : c.fifo.put_index = 0
  get_index : c.fifo.get_index = 0
  is_full : c.fifo.is_full = false
  unread : c.unread = []

/-- The index that moves stays within 16 bits before it wraps, and the length of a read is not
negative. -/
def Fits (c : DmaReceive α) : DmaStep α → Prop
  | .received bytes => c.fifo.put_index + bytes.length < 65536
  | .read length => 0 ≤ length ∧ c.fifo.get_index + min length.toNat c.unread.length < 65536

instance (c : DmaReceive α) : (l : DmaStep α) → Decidable (c.Fits l)
  | .received _ => inferInstanceAs (Decidable (_ < 65536))
  | .read _ => inferInstanceAs (Decidable (_ ∧ _))

end DmaReceive

def dmaMachine (α : Type) (cfg : SerialConfig) : Machine (DmaReceive α) (DmaStep α) where
  start := DmaReceive.Fresh
  step c l c' := c.step cfg l = some c'

/-- The indices are inside the buffer, the calculated length is right, and a read returns the oldest
of the unread bytes. -/
structure DmaContract (cfg : SerialConfig) (c : DmaReceive α) : Prop where
  put_lt : c.fifo.put_index < cfg.bufsz
  get_lt : c.fifo.get_index < cfg.bufsz
  capped : c.unread.length ≤ cfg.bufsz
  recved : serial_fifo_calc_recved_len cfg c.fifo = c.unread.length
  reads : ∀ length, c.Fits (.read length) → ∃ f', serial_dma_rx cfg length c.fifo =
    some (c.unread.take length.toNat, min length.toNat c.unread.length, f')

end

section

variable {α : Type} {cfg : SerialConfig} {f : RxFifo α} {unread : List α} {n : Nat}

/-- The FIFO holds the unread bytes. -/
structure DmaHolds (cfg : SerialConfig) (f : RxFifo α) (unread : List α) : Prop where
  ring : Ring.Holds f.buffer cfg.bufsz f.put_index f.get_index unread
  full : f.is_full = true ↔ unread.length = cfg.bufsz

theorem mod_of_lt_twice {m n : Nat} (hle : n ≤ m) (hlt : m < n + n) : m % n = m - n := by
  rw [Nat.mod_eq_sub_mod hle, Nat.mod_eq_of_lt (by omega)]

theorem sub32_of_le {a b : Nat} (ha : a < 2 ^ 32) (hb : b ≤ a) : sub32 a b = a - b := by
  unfold sub32
  omega

theorem DmaHolds.recved (h : DmaHolds cfg f unread) (hpos : 0 < cfg.bufsz) :
    serial_fifo_calc_recved_len cfg f = unread.length := by
  have hroom := h.ring.room
  have hget := h.ring.out_lt hpos
  have hput := h.ring.inp_eq hpos
  have hmeet := Holds.meet h.ring hpos
  unfold serial_fifo_calc_recved_len
  by_cases heq : f.put_index = f.get_index
  · rw [if_pos heq]
    cases hfull : f.is_full with
    | true => exact (h.full.mp hfull).symm
    | false =>
      have hne : unread.length ≠ cfg.bufsz := fun hlen => by
        rw [h.full.mpr hlen] at hfull
        cases hfull
      rcases hmeet.mp heq with hzero | hsize
      · exact hzero.symm
      · exact absurd hsize hne
  · rw [if_neg heq]
    have hne : ¬ (unread.length = 0 ∨ unread.length = cfg.bufsz) := fun hlen => heq (hmeet.mpr hlen)
    unfold Ring.slot at hput
    split at hput <;> split <;> omega

/-- A FIFO with `u` unread bytes whose put index can move by `n` in 16 bits. -/
structure CanMove (cfg : SerialConfig) (f : RxFifo α) (u n : Nat) : Prop where
  put_eq : f.get_index + u < cfg.bufsz ∧ f.put_index = f.get_index + u ∨
    cfg.bufsz ≤ f.get_index + u ∧ f.put_index = f.get_index + u - cfg.bufsz
  get_lt : f.get_index < cfg.bufsz
  unread_le : u ≤ cfg.bufsz
  full : f.is_full = decide (u = cfg.bufsz)
  len_le : n ≤ cfg.bufsz
  fits : f.put_index + n < 65536

theorem DmaHolds.canMove (h : DmaHolds cfg f unread) (hpos : 0 < cfg.bufsz) (hn : n ≤ cfg.bufsz)
    (hfits : f.put_index + n < 65536) : CanMove cfg f unread.length n := by
  have hput := h.ring.inp_eq hpos
  refine ⟨?_, h.ring.out_lt hpos, h.ring.room, ?_, hn, hfits⟩
  · unfold Ring.slot at hput
    split at hput <;> omega
  · rw [Bool.eq_iff_iff, decide_eq_true_iff]
    exact h.full

theorem CanMove.put_index {u : Nat} (h : CanMove cfg f u n) :
    (movePutIndex cfg n f).put_index = Ring.slot cfg.bufsz f.put_index n := by
  obtain ⟨hput, hget, hu, -, hn, hfits⟩ := h
  have hmod : cfg.bufsz ≤ f.put_index + n →
      (f.put_index + n) % cfg.bufsz = f.put_index + n - cfg.bufsz :=
    fun hle => mod_of_lt_twice hle (by omega)
  unfold movePutIndex Ring.slot
  simp only [Nat.mod_eq_of_lt (show f.put_index + n < 2 ^ 16 from hfits)]
  split_ifs <;> simp only <;> omega

theorem CanMove.is_full {u : Nat} (h : CanMove cfg f u n) :
    (movePutIndex cfg n f).is_full = decide (cfg.bufsz ≤ u + n) := by
  obtain ⟨hput, hget, hu, hfull, hn, hfits⟩ := h
  have hmod : cfg.bufsz ≤ f.put_index + n →
      (f.put_index + n) % cfg.bufsz = f.put_index + n - cfg.bufsz :=
    fun hle => mod_of_lt_twice hle (by omega)
  unfold movePutIndex
  simp only [Nat.mod_eq_of_lt (show f.put_index + n < 2 ^ 16 from hfits)]
  split_ifs <;> simp only [hfull, eq_comm (a := true), decide_eq_true_iff, decide_eq_decide] <;> omega

theorem movePutIndex_rest (cfg : SerialConfig) (n : Nat) (f : RxFifo α) :
    (movePutIndex cfg n f).buffer = f.buffer ∧
      (movePutIndex cfg n f).get_index = f.get_index := by
  unfold movePutIndex
  simp only
  split_ifs <;> exact ⟨rfl, rfl⟩

/-- The put index moves on by the length, and takes the get index with it when the FIFO runs full. -/
theorem CanMove.update {u : Nat} (h : CanMove cfg f u n) :
    rt_dma_recv_update_put_index cfg n f =
      { f with
        put_index := Ring.slot cfg.bufsz f.put_index n
        get_index := if u + n < cfg.bufsz then f.get_index else Ring.slot cfg.bufsz f.put_index n
        is_full := decide (cfg.bufsz ≤ u + n) } := by
  have hput := h.put_index
  have hfull := h.is_full
  obtain ⟨hbuffer, hget⟩ := movePutIndex_rest cfg n f
  unfold rt_dma_recv_update_put_index
  generalize movePutIndex cfg n f = f' at hput hfull hbuffer hget ⊢
  rcases f' with ⟨buffer, put_index, get_index, is_full⟩
  simp only at hput hfull hbuffer hget
  subst hput hfull hbuffer hget
  by_cases hle : cfg.bufsz ≤ u + n
  · rw [if_pos (decide_eq_true hle), if_neg (Nat.not_lt.mpr hle)]
  · rw [if_neg (by simpa using hle), if_pos (Nat.not_le.mp hle)]

/-- The bytes that the DMA wrote are unread after the interrupt, and the oldest are lost where they
do not all fit. -/
theorem DmaHolds.received (h : DmaHolds cfg f unread) (hpos : 0 < cfg.bufsz) {bytes : List α}
    (hn : bytes.length ≤ cfg.bufsz) (hfits : f.put_index + bytes.length < 65536) :
    DmaHolds cfg
      (rt_dma_recv_update_put_index cfg bytes.length
        { f with buffer := Ring.writeAll cfg.bufsz bytes f.buffer f.put_index })
      (lastOf cfg.bufsz (unread ++ bytes)) := by
  obtain ⟨hput, hget, hu, hfull, -, -⟩ := h.canMove hpos hn hfits
  have hmove : CanMove cfg { f with buffer := Ring.writeAll cfg.bufsz bytes f.buffer f.put_index }
      unread.length bytes.length := ⟨hput, hget, hu, hfull, hn, hfits⟩
  obtain ⟨out', hring, hsame⟩ := h.ring.pushAll hpos bytes
  have hput_lt : f.put_index < cfg.bufsz := by omega
  rw [Ring.iterate_next hput_lt hn] at hring
  have hlast : lastOf cfg.bufsz (unread ++ bytes) =
      (unread ++ bytes).drop (unread.length + bytes.length - cfg.bufsz) := by
    rw [lastOf, List.length_append]
  have hlen : (lastOf cfg.bufsz (unread ++ bytes)).length =
      min (unread.length + bytes.length) cfg.bufsz := by
    rw [hlast, List.length_drop, List.length_append]
    omega
  rw [← hlast] at hring
  rw [hmove.update]
  refine ⟨?_, ?_⟩
  · by_cases hlt : unread.length + bytes.length < cfg.bufsz
    · rw [hsame hlt.le] at hring
      simp only [if_pos hlt]
      exact hring
    · have hmeet := hring.out_next hpos (by omega)
      rw [← hmeet] at hring
      simp only [if_neg hlt]
      exact hring
  · rw [decide_eq_true_iff, hlen]
    omega

/-! ### Reading -/

theorem RxFifo.copyOut_eq {start count : Nat} (h : start + count ≤ cfg.bufsz) :
    f.copyOut cfg start count = some ((List.range count).map fun i => f.buffer (start + i)) :=
  if_pos h

/-- The bytes are copied from inside the buffer, oldest first. -/
theorem DmaHolds.copyData (h : DmaHolds cfg f unread) (hpos : 0 < cfg.bufsz)
    (hn : n ≤ unread.length) : f.copyData cfg n = some (unread.take n) := by
  have hroom := h.ring.room
  have hget := h.ring.out_lt hpos
  have hbound := cfg.bufsz_lt
  have hadd : add32 f.get_index n = f.get_index + n := Nat.mod_eq_of_lt (by omega)
  have hlen : (unread.take n).length = n := by rw [List.length_take, Nat.min_eq_left hn]
  unfold RxFifo.copyData
  rw [hadd]
  split
  · next hlt =>
    rw [RxFifo.copyOut_eq hlt.le, Option.some.injEq]
    apply List.ext_getElem
    · rw [List.length_map, List.length_range, hlen]
    · intro i hi hi'
      have hslot : Ring.slot cfg.bufsz f.get_index i = f.get_index + i := if_pos (by omega)
      rw [List.getElem_map, List.getElem_range, List.getElem_take, ← h.ring.get i (by omega), hslot]
  · next hge =>
    have hfirst : sub32 cfg.bufsz f.get_index = cfg.bufsz - f.get_index :=
      sub32_of_le (by omega) hget.le
    have hsecond : sub32 (add32 n f.get_index) cfg.bufsz = n + f.get_index - cfg.bufsz := by
      rw [show add32 n f.get_index = n + f.get_index from Nat.mod_eq_of_lt (by omega),
        sub32_of_le (by omega) (by omega)]
    rw [hfirst, hsecond, RxFifo.copyOut_eq (by omega), RxFifo.copyOut_eq (by omega)]
    simp only [Option.bind_eq_bind, Option.bind_some, Option.pure_def, Option.some.injEq]
    apply List.ext_getElem
    · simp only [List.length_append, List.length_map, List.length_range, hlen]
      omega
    · intro i hi hi'
      rw [List.getElem_take, ← h.ring.get i (by omega), List.getElem_append]
      split
      · next hlt =>
        rw [List.length_map, List.length_range] at hlt
        have hslot : Ring.slot cfg.bufsz f.get_index i = f.get_index + i := if_pos (by omega)
        rw [List.getElem_map, List.getElem_range, hslot]
      · next hge' =>
        rw [List.length_map, List.length_range] at hge'
        have hslot : Ring.slot cfg.bufsz f.get_index i = f.get_index + i - cfg.bufsz :=
          if_neg (by omega)
        rw [List.getElem_map, List.getElem_range, hslot, List.length_map, List.length_range]
        congr 1
        omega

/-- The get index moves on by the length. -/
theorem DmaHolds.update_get (h : DmaHolds cfg f unread) (hpos : 0 < cfg.bufsz)
    (hn : n ≤ unread.length) (hfits : f.get_index + n < 65536) :
    ∃ f', rt_dma_recv_update_get_index cfg n f = some f' ∧ DmaHolds cfg f' (unread.drop n) := by
  have hroom := h.ring.room
  have hget := h.ring.out_lt hpos
  have hpop := h.ring.popAll hn
  rw [Ring.iterate_next hget (by omega)] at hpop
  have hslot : Ring.slot cfg.bufsz f.get_index n =
      if f.get_index + n ≥ cfg.bufsz then (f.get_index + n) % cfg.bufsz else f.get_index + n := by
    unfold Ring.slot
    split_ifs with hlt hge hge
    · omega
    · rfl
    · rw [mod_of_lt_twice hge (by omega)]
    · omega
  unfold rt_dma_recv_update_get_index
  rw [RT_ASSERT_true (by rw [h.recved hpos]; exact hn), Nat.mod_eq_of_lt (show f.get_index + n < 2 ^ 16 from hfits)]
  refine ⟨_, rfl, ?_, ?_⟩
  · rw [← hslot]
    exact hpop
  · rw [List.length_drop]
    cases hfull : f.is_full with
    | true =>
      have hlen := h.full.mp hfull
      by_cases hzero : n = 0
      · simp only [hzero, ne_eq, not_true, and_false, if_false, true_iff]
        omega
      · simp only [ne_eq, hzero, not_false_iff, and_self, if_true, Bool.false_eq_true, false_iff]
        omega
    | false =>
      have hlen : unread.length ≠ cfg.bufsz := fun heq => by
        rw [h.full.mpr heq] at hfull
        cases hfull
      simp only [Bool.false_eq_true, false_and, if_false, false_iff]
      omega

/-- A read returns the oldest of the unread bytes. -/
theorem DmaHolds.read (h : DmaHolds cfg f unread) (hpos : 0 < cfg.bufsz) {length : Int}
    (hlength : 0 ≤ length) (hfits : f.get_index + min length.toNat unread.length < 65536) :
    ∃ f', serial_dma_rx cfg length f =
        some (unread.take length.toNat, min length.toNat unread.length, f') ∧
      DmaHolds cfg f' (unread.drop length.toNat) := by
  have hroom := h.ring.room
  have hbound := cfg.bufsz_lt
  have hlen : (if length < (unread.length : Int) then (length % 2 ^ 32).toNat else unread.length) =
      min length.toNat unread.length := by
    split <;> omega
  obtain ⟨f', hget, hholds⟩ := h.update_get hpos (Nat.min_le_right length.toNat _) hfits
  have htake : unread.take (min length.toNat unread.length) = unread.take length.toNat :=
    List.take_eq_take_iff.mpr (by omega)
  have hdrop : unread.drop (min length.toNat unread.length) = unread.drop length.toNat := by
    rcases Nat.le_total length.toNat unread.length with hle | hle
    · rw [Nat.min_eq_left hle]
    · rw [Nat.min_eq_right hle, List.drop_length, List.drop_eq_nil_of_le hle]
  refine ⟨f', ?_, hdrop ▸ hholds⟩
  unfold serial_dma_rx
  simp only [h.recved hpos, hlen, h.copyData hpos (Nat.min_le_right _ _), hget, htake,
    Option.bind_eq_bind, Option.bind_some, Option.pure_def]

theorem DmaHolds.contract {c : DmaReceive α} (h : DmaHolds cfg c.fifo c.unread)
    (hpos : 0 < cfg.bufsz) : DmaContract cfg c := by
  have hroom := h.ring.room
  have hget := h.ring.out_lt hpos
  refine ⟨?_, hget, hroom, h.recved hpos, fun length hfits => ?_⟩
  · rw [h.ring.inp_eq hpos]
    unfold Ring.slot
    split <;> omega
  · obtain ⟨f', hread, -⟩ := h.read hpos hfits.1 hfits.2
    exact ⟨f', hread⟩

end

variable {α : Type}

/-- While the indices stay within 16 bits the FIFO is the last `bufsz` bytes that came and were not
read. -/
theorem dma_receive (cfg : SerialConfig) (hpos : 0 < cfg.bufsz) {c : DmaReceive α}
    (hr : ((dmaMachine α cfg).restrict DmaReceive.Fits).Reachable c) : DmaContract cfg c := by
  suffices h : DmaHolds cfg c.fifo c.unread from h.contract hpos
  apply hr.invariant (P := fun c => DmaHolds cfg c.fifo c.unread)
  · rintro c ⟨hput, hget, hfull, hunread⟩
    rw [hunread]
    refine ⟨?_, ?_⟩
    · rw [hput, hget]
      exact .empty _ _
    · rw [hfull, List.length_nil]
      simp only [Bool.false_eq_true, false_iff]
      omega
  · rintro c l c' - h ⟨hfits, hstep⟩
    cases l with
    | received bytes =>
      simp only [dmaMachine, DmaReceive.step] at hstep
      split at hstep
      · next hlen =>
        cases hstep
        exact h.received hpos hlen hfits
      · cases hstep
    | read length =>
      obtain ⟨f', hread, hholds⟩ := h.read hpos hfits.1 hfits.2
      simp only [dmaMachine, DmaReceive.step, hread, Option.map_some] at hstep
      cases hstep
      exact hholds

/-- A FIFO that was just opened. -/
def openedFifo : DmaReceive UInt8 := ⟨⟨fun _ => 0, 0, 0, false⟩, []⟩

theorem openedFifo_fresh : openedFifo.Fresh := ⟨rfl, rfl, rfl, rfl⟩

/-- The steps of the runs in which the indices stay within 16 bits. -/
def fittingStep (c : DmaReceive UInt8) (l : DmaStep UInt8) : Option (DmaReceive UInt8) :=
  if c.Fits l then c.step fourBytes l else none

/-- Seven bytes in two runs and a read between them. -/
def sevenBytes : List (DmaStep UInt8) := [.received [1, 2, 3], .read 2, .received [4, 5, 6, 7]]

theorem dma_receive_seven :
    ∃ c, Machine.runs fittingStep openedFifo sevenBytes = some c ∧ c.unread = [4, 5, 6, 7] ∧
      DmaContract fourBytes c := by
  have hrun : ∃ c, Machine.runs fittingStep openedFifo sevenBytes = some c ∧
      c.unread = [4, 5, 6, 7] := ⟨_, rfl, rfl⟩
  obtain ⟨c, hc, hunread⟩ := hrun
  refine ⟨c, hc, hunread, dma_receive fourBytes (by decide) ?_⟩
  exact (Machine.Reachable.start openedFifo_fresh).runs
    (fun _ _ _ h => Option.ite_none_right_eq_some.mp h) hc

theorem received_step (cfg : SerialConfig) (c : DmaReceive α) (bytes : List α)
    (h : bytes.length ≤ cfg.bufsz) :
    (dmaMachine α cfg).step c (.received bytes) (c.received cfg bytes) :=
  if_pos h

/-- A run as long as the buffer leaves only its own bytes unread. -/
theorem received_length (cfg : SerialConfig) (c : DmaReceive α) (bytes : List α)
    (h : cfg.bufsz ≤ bytes.length) : (c.received cfg bytes).unread.length = cfg.bufsz :=
  lastOf_length (by rw [List.length_append]; omega)

def manyBytes : SerialConfig := ⟨40000, by decide⟩

/-- In a buffer of 40000 bytes the put index, of 16 bits, runs past its end: after runs of 39999 and of
40000 bytes it stands at 14463 and only so many bytes seem to be unread. -/
theorem dma_receive_wraps :
    ¬ ∀ cfg : SerialConfig, 0 < cfg.bufsz → ∀ c, (dmaMachine UInt8 cfg).Reachable c →
      DmaContract cfg c := by
  intro h
  have hwrap (first second : List UInt8) (h1 : first.length = 39999) (h2 : second.length = 40000) :
      False := by
    have hr1 := (Machine.Reachable.start openedFifo_fresh).next
      (received_step manyBytes _ first (by rw [h1]; decide))
    have hr2 := hr1.next (received_step manyBytes _ second (by rw [h2]; decide))
    have hcalc : serial_fifo_calc_recved_len manyBytes
        ((openedFifo.received manyBytes first).received manyBytes second).fifo = 14463 := by
      simp [DmaReceive.received, rt_dma_recv_update_put_index, movePutIndex,
        serial_fifo_calc_recved_len, openedFifo, manyBytes, h1, h2]
    have hsize : manyBytes.bufsz = 40000 := rfl
    have hlen := received_length manyBytes (openedFifo.received manyBytes first) second (by omega)
    have hrecved := (h manyBytes (by decide) _ hr2).recved
    omega
  exact hwrap (.replicate 39999 0) (.replicate 40000 0) List.length_replicate List.length_replicate

end Ab32Vg1.Drivers
