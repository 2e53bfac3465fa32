import Ab32Vg1.Kernel.Thread
import Ab32Vg1.ProofKit.Ring
import Ab32Vg1.ProofKit.Transition

/-! The receive path of a UART: `uart_irq_process` of `drv_usart.c` puts bytes into the software FIFO
of `serial.c`, and `_serial_int_rx` takes them out.  A full FIFO drops its oldest byte. -/

namespace Ab32Vg1.Drivers

open Kernel ProofKit

/-- `struct serial_configure`; `bufsz` has 16 bits. -/
structure SerialConfig where
  bufsz : Nat
  bufsz_lt : bufsz < 2 ^ 16

/-- `struct rt_serial_rx_fifo`, its indices of 16 bits.  The code only moves the bytes of type `α`. -/
structure RxFifo (α : Type) where
  buffer : Nat → α
  put_index : Nat
  get_index : Nat
  is_full : Bool

section

variable {α : Type}

/-- `rx_length` in the interrupt handlers. -/
def RxFifo.rx_length (cfg : SerialConfig) (f : RxFifo α) : Nat :=
  if f.put_index ≥ f.get_index then f.put_index - f.get_index
  else cfg.bufsz - (f.get_index - f.put_index)

/-- An index moved on by one, in 16 bits. -/
def moveOn (cfg : SerialConfig) (index : Nat) : Nat :=
  if (index + 1) % 2 ^ 16 ≥ cfg.bufsz then 0 else (index + 1) % 2 ^ 16

/-- The loop of `uart_irq_process` over the bytes that `getc` returns before it returns -1. -/
def uartLoop (cfg : SerialConfig) : (chs : List α) → (f : RxFifo α) → RxFifo α
  | [], f => f
  | ch :: chs, f =>
    let f := { f with
      buffer := Function.update f.buffer f.put_index ch, put_index := moveOn cfg f.put_index }
    let f :=
      if f.put_index = f.get_index then
        { f with get_index := moveOn cfg f.get_index, is_full := true }
      else f
    uartLoop cfg chs f

/-- `uart_irq_process`: the FIFO, and the length that it hands to `rx_indicate`. -/
def uart_irq_process (cfg : SerialConfig) (rx_indicate : Bool) (chs : List α) (f : RxFifo α) :
    RxFifo α × Option Nat :=
  let f := uartLoop cfg chs f
  let rx_length := f.rx_length cfg
  (f, if rx_indicate ∧ rx_length ≠ 0 then some rx_length else none)

/-- The loop of `rt_hw_serial_isr` for `RT_SERIAL_EVENT_RX_IND`; `already_output` is the variable of
`_serial_check_buffer_size`. -/
def serialLoop (cfg : SerialConfig) : (chs : List α) → (f : RxFifo α) →
    (already_output : Bool) → RxFifo α × Bool
  | [], f, already_output => (f, already_output)
  | ch :: chs, f, already_output =>
    let f := { f with
      buffer := Function.update f.buffer f.put_index ch, put_index := moveOn cfg f.put_index }
    if f.put_index = f.get_index then
      serialLoop cfg chs { f with get_index := moveOn cfg f.get_index, is_full := true } true
    else serialLoop cfg chs f already_output

/-- `rt_hw_serial_isr` for `RT_SERIAL_EVENT_RX_IND`. -/
def rt_hw_serial_isr_rx (cfg : SerialConfig) (rx_indicate : Bool) (chs : List α)
    (f : RxFifo α) (already_output : Bool) : RxFifo α × Option Nat × Bool :=
  let (f, already_output) := serialLoop cfg chs f already_output
  let indicated :=
    if rx_indicate then
      let rx_length := f.rx_length cfg
      if rx_length ≠ 0 then some rx_length else none
    else none
  (f, indicated, already_output)

/-- One turn of the loop of `_serial_int_rx`, with interrupts disabled: the byte that it takes. -/
def serialIntRxTurn (cfg : SerialConfig) (f : RxFifo α) : RxFifo α × Option α :=
  if f.get_index = f.put_index ∧ f.is_full = false then (f, none)
  else
    let ch := f.buffer f.get_index
    ({ f with
      get_index := moveOn cfg f.get_index
      is_full := if f.is_full = true then false else f.is_full }, some ch)

/-- What waits in the FIFO. -/
def RxFifo.unread (cfg : SerialConfig) (f : RxFifo α) : List α :=
  (List.range (f.rx_length cfg)).map fun i => f.buffer (Ring.slot cfg.bufsz f.get_index i)

/-- The last `n` elements. -/
def lastOf (n : Nat) (l : List α) : List α := l.drop (l.length - n)

end

/-- A byte with the number of its arrival, which is not in the code. -/
abbrev Arrival := BitVec 8 × Nat

/-- A call of `_serial_int_rx`: the number of the call, `length` and what is in the buffer of the
caller. -/
structure SerialRead where
  id : Nat
  length : Nat
  data : List (BitVec 8)
  deriving DecidableEq

/-- The FIFO and the threads that read it.  Not in the code: what has arrived, what calls have taken,
each with its call, and what the calls that ended have returned. -/
structure UartRx where
  fifo : RxFifo Arrival
  readers : Tid → Option SerialRead
  calls : Nat
  arrived : List (BitVec 8)
  taken : List (Nat × Arrival)
  results : List (Nat × List (BitVec 8))

inductive UartStep where
  | irq (chs : List (BitVec 8))
  | read (t : Tid) (length : Nat)
  | turn (t : Tid)
  deriving DecidableEq

namespace UartRx

def irq (cfg : SerialConfig) (c : UartRx) (chs : List (BitVec 8)) : UartRx :=
  { c with
    fifo := (uart_irq_process cfg true (chs.zipIdx c.arrived.length) c.fifo).1
    arrived := c.arrived ++ chs }

def read (c : UartRx) (t : Tid) (length : Nat) : Option UartRx :=
  match c.readers t with
  | some _ => none
  | none =>
    some { c with
      readers := Function.update c.readers t (some ⟨c.calls, length, []⟩), calls := c.calls + 1 }

/-- The call returns what it has. -/
def returns (c : UartRx) (t : Tid) (r : SerialRead) : UartRx :=
  { c with readers := Function.update c.readers t none, results := (r.id, r.data) :: c.results }

/-- A turn of `while (length)`. -/
def turn (cfg : SerialConfig) (c : UartRx) (t : Tid) : Option UartRx :=
  (c.readers t).map fun r =>
    if r.length = 0 then c.returns t r
    else
      match serialIntRxTurn cfg c.fifo with
      | (fifo, none) => { c with fifo := fifo }.returns t r
      | (fifo, some ch) =>
        { c with
          fifo := fifo
          readers := Function.update c.readers t (some ⟨r.id, r.length - 1, r.data ++ [ch.1]⟩)
          taken := c.taken ++ [(r.id, ch)] }

def step (cfg : SerialConfig) (c : UartRx) : UartStep → Option UartRx
  | .irq chs => some (c.irq cfg chs)
  | .read t length => c.read t length
  | .turn t => c.turn cfg t

/-- As `rt_serial_open` leaves it. -/
structure Fresh (c : UartRx) : Prop where
  indices : c.fifo.put_index = 0 ∧ c.fifo.get_index = 0 ∧ c.fifo.is_full = false
  readers : ∀ t, c.readers t = none
  empty : c.arrived = [] ∧ c.taken = [] ∧ c.results = []

/-- How many bytes have arrived since the one that was taken last. -/
def since (c : UartRx) : Nat :=
  match c.taken.getLast? with
  | none => c.arrived.length
  | some (_, _, k) => c.arrived.length - (k + 1)

/-- The bytes that a call has taken. -/
def takenBy (c : UartRx) (id : Nat) : List (BitVec 8) :=
  (c.taken.filter fun x => x.1 = id).map fun x => x.2.1

end UartRx

def uartMachine (cfg : SerialConfig) : Machine UartRx UartStep where
  start := UartRx.Fresh
  step c l c' := c.step cfg l = some c'

/-- What the receive path owes to its readers: of the bytes that arrived since the last one that was
taken, the newest wait in the FIFO; the others were taken in the order of arrival, or dropped. -/
structure UartContract (cfg : SerialConfig) (c : UartRx) : Prop where
  indices : c.fifo.put_index < cfg.bufsz ∧ c.fifo.get_index < cfg.bufsz
  unread : c.fifo.unread cfg = lastOf (min c.since (cfg.bufsz - 1)) c.arrived.zipIdx
  taken : (c.taken.map Prod.snd).Sublist c.arrived.zipIdx
  reading : ∀ t r, c.readers t = some r → r.data = c.takenBy r.id
  results : ∀ id data, (id, data) ∈ c.results → data = c.takenBy id

/-! ### The FIFO holds the newest bytes -/

section

variable {α : Type} {cfg : SerialConfig} {f : RxFifo α} {arrived : List α} {n : Nat} {ch v : α}
  {q : List α}

theorem lastOf_length (h : n ≤ arrived.length) : (lastOf n arrived).length = n := by
  unfold lastOf
  rw [List.length_drop]
  omega

theorem lastOf_append (h : n ≤ arrived.length) :
    lastOf (n + 1) (arrived ++ [ch]) = lastOf n arrived ++ [ch] := by
  unfold lastOf
  rw [List.length_append, List.length_singleton,
    show arrived.length + 1 - (n + 1) = arrived.length - n by omega,
    List.drop_append_of_le_length (by omega)]

variable (arrived n) in
theorem lastOf_cons (h : n < arrived.length) :
    ∃ v, arrived[arrived.length - (n + 1)]? = some v ∧
      lastOf (n + 1) arrived = v :: lastOf n arrived := by
  unfold lastOf
  have hlt : arrived.length - (n + 1) < arrived.length := by omega
  refine ⟨_, List.getElem?_eq_getElem hlt, ?_⟩
  rw [List.drop_eq_getElem_cons hlt, show arrived.length - (n + 1) + 1 = arrived.length - n by omega]

theorem moveOn_eq {index : Nat} (h : index < cfg.bufsz) :
    moveOn cfg index = Ring.next cfg.bufsz index := by
  have hbound := cfg.bufsz_lt
  unfold moveOn Ring.next
  rw [Nat.mod_eq_of_lt (by omega)]

/-- The FIFO holds the newest of the last `n` that arrived. -/
structure FifoHolds (cfg : SerialConfig) (f : RxFifo α) (arrived : List α) (n : Nat) : Prop where
  since : n ≤ arrived.length
  ring : Ring.Holds f.buffer cfg.bufsz f.put_index f.get_index
    (lastOf (min n (cfg.bufsz - 1)) arrived)
  full : f.is_full = true → n ≠ 0

theorem FifoHolds.length (h : FifoHolds cfg f arrived n) :
    (lastOf (min n (cfg.bufsz - 1)) arrived).length = min n (cfg.bufsz - 1) := by
  have hsince := h.since
  exact lastOf_length (by omega)

/-- The indices meet when the FIFO is empty, or when it has no room for one more. -/
theorem Holds.meet {pool : Nat → α} {size inp out : Nat} (h : Ring.Holds pool size inp out q)
    (hsize : 0 < size) : inp = out ↔ q.length = 0 ∨ q.length = size := by
  have hroom := h.room
  have hout := h.out_lt hsize
  rw [h.inp_eq hsize]
  unfold Ring.slot
  split <;> omega

/-- One byte arrives, and drops the oldest one where the FIFO is full. -/
theorem FifoHolds.put (h : FifoHolds cfg f arrived n) (h2 : 2 ≤ cfg.bufsz) (ch : α) :
    FifoHolds cfg (uartLoop cfg [ch] f) (arrived ++ [ch]) (n + 1) := by
  have hlen := h.length
  have hsince := h.since
  have hget := h.ring.out_lt (by omega)
  have hput : f.put_index < cfg.bufsz := by
    rw [h.ring.inp_eq (by omega)]
    exact Ring.slot_lt hget (by omega)
  have hpush := h.ring.pushBack (v := ch) (by omega)
  have hmeet := Holds.meet hpush (by omega)
  rw [List.length_append, List.length_singleton, hlen] at hmeet
  have hmin : min n (cfg.bufsz - 1) ≤ arrived.length := by omega
  rw [← lastOf_append hmin] at hpush
  unfold uartLoop
  dsimp only
  rw [moveOn_eq hput]
  by_cases hfull : n < cfg.bufsz - 1
  · rw [if_neg (fun heq => by have := hmeet.mp heq; omega)]
    refine ⟨by simp; omega, ?_, fun _ => by omega⟩
    rw [show min (n + 1) (cfg.bufsz - 1) = min n (cfg.bufsz - 1) + 1 by omega]
    exact hpush
  · rw [if_pos (hmeet.mpr (by omega)), moveOn_eq hget]
    refine ⟨by simp; omega, ?_, fun _ => by omega⟩
    obtain ⟨v, -, hcons⟩ := lastOf_cons (arrived ++ [ch])
      (min n (cfg.bufsz - 1)) (by simp; omega)
    rw [hcons] at hpush
    rw [show min (n + 1) (cfg.bufsz - 1) = min n (cfg.bufsz - 1) by omega]
    exact hpush.popFront

theorem uartLoop_cons (chs : List α) : uartLoop cfg (ch :: chs) f = uartLoop cfg chs (uartLoop cfg [ch] f) :=
  rfl

theorem FifoHolds.puts (h2 : 2 ≤ cfg.bufsz) : ∀ (chs : List α) {f : RxFifo α} {arrived : List α}
    {n : Nat}, FifoHolds cfg f arrived n →
      FifoHolds cfg (uartLoop cfg chs f) (arrived ++ chs) (n + chs.length) := by
  intro chs
  induction chs with
  | nil =>
    intro f arrived n h
    rw [List.append_nil]
    exact h
  | cons ch chs ih =>
    intro f arrived n h
    have hrest := ih (h.put h2 ch)
    rw [List.append_assoc, List.singleton_append,
      show n + 1 + chs.length = n + (ch :: chs).length by simp; omega] at hrest
    exact hrest

theorem FifoHolds.indices (h : FifoHolds cfg f arrived n) (h2 : 2 ≤ cfg.bufsz) :
    f.put_index < cfg.bufsz ∧ f.get_index < cfg.bufsz := by
  have hget := h.ring.out_lt (by omega)
  refine ⟨?_, hget⟩
  rw [h.ring.inp_eq (by omega), h.length]
  exact Ring.slot_lt hget (by omega)

theorem FifoHolds.rx_length (h : FifoHolds cfg f arrived n) (h2 : 2 ≤ cfg.bufsz) :
    f.rx_length cfg = min n (cfg.bufsz - 1) := by
  have hget := h.ring.out_lt (by omega)
  have hput := h.ring.inp_eq (by omega)
  rw [h.length] at hput
  unfold RxFifo.rx_length
  rw [hput]
  unfold Ring.slot
  split <;> split <;> omega

theorem FifoHolds.unread (h : FifoHolds cfg f arrived n) (h2 : 2 ≤ cfg.bufsz) :
    f.unread cfg = lastOf (min n (cfg.bufsz - 1)) arrived := by
  unfold RxFifo.unread
  rw [h.rx_length h2]
  apply List.ext_getElem
  · rw [List.length_map, List.length_range, h.length]
  · intro i hi hi'
    rw [List.getElem_map, List.getElem_range, h.ring.get i hi']

/-- A turn of a read finds the FIFO empty, or takes the oldest byte in it. -/
theorem FifoHolds.take (h : FifoHolds cfg f arrived n) (h2 : 2 ≤ cfg.bufsz) :
    n = 0 ∧ serialIntRxTurn cfg f = (f, none) ∨
      0 < min n (cfg.bufsz - 1) ∧
        ∃ f' v, serialIntRxTurn cfg f = (f', some v) ∧
          arrived[arrived.length - min n (cfg.bufsz - 1)]? = some v ∧
          FifoHolds cfg f' arrived (min n (cfg.bufsz - 1) - 1) := by
  have hlen := h.length
  have hsince := h.since
  have hmeet := Holds.meet h.ring (by omega)
  unfold serialIntRxTurn
  by_cases hn : n = 0
  · have hempty : f.get_index = f.put_index ∧ f.is_full = false :=
      ⟨(hmeet.mpr (by omega)).symm, by
        cases hfull : f.is_full with
        | false => rfl
        | true => exact absurd hn (h.full hfull)⟩
    rw [if_pos hempty]
    exact Or.inl ⟨hn, rfl⟩
  · have hne : f.put_index ≠ f.get_index := fun heq => by
      have := hmeet.mp heq
      omega
    rw [if_neg fun hempty => hne hempty.1.symm]
    obtain ⟨v, hv, hcons⟩ := lastOf_cons arrived (min n (cfg.bufsz - 1) - 1)
      (by omega)
    rw [show min n (cfg.bufsz - 1) - 1 + 1 = min n (cfg.bufsz - 1) by omega] at hv hcons
    have hring := h.ring
    rw [hcons] at hring
    have hfront := hring.front
    have hget := (h.indices h2).2
    refine Or.inr ⟨by omega, _, _, rfl, hfront ▸ hv, ⟨by omega, ?_, fun hfull => ?_⟩⟩
    · have hpop := hring.popFront
      rw [← moveOn_eq hget] at hpop
      rw [show min (min n (cfg.bufsz - 1) - 1) (cfg.bufsz - 1) = min n (cfg.bufsz - 1) - 1 by omega]
      exact hpop
    · cases hfull' : f.is_full <;> simp [hfull'] at hfull

/-- Both interrupt handlers leave the same FIFO. -/
theorem serialLoop_fifo (chs : List α) (f : RxFifo α) (already_output : Bool) :
    (serialLoop cfg chs f already_output).1 = uartLoop cfg chs f := by
  induction chs generalizing f already_output with
  | nil => rfl
  | cons ch chs ih =>
    unfold serialLoop uartLoop
    dsimp only
    split
    · exact ih ..
    · exact ih ..

end

namespace UartRx

variable {cfg : SerialConfig} {c c' : UartRx} {t u : Tid}

structure UartInv (cfg : SerialConfig) (c : UartRx) : Prop where
  fifo : FifoHolds cfg c.fifo c.arrived.zipIdx c.since
  taken : (c.taken.map Prod.snd).Sublist (c.arrived.zipIdx.take (c.arrived.length - c.since))
  reading : ∀ t r, c.readers t = some r → r.data = c.takenBy r.id
  results : ∀ id data, (id, data) ∈ c.results → data = c.takenBy id
  begun : ∀ t r, c.readers t = some r → r.id < c.calls
  ended : ∀ id data, (id, data) ∈ c.results → id < c.calls ∧
    ∀ t r, c.readers t = some r → r.id ≠ id
  calls : ∀ x ∈ c.taken, x.1 < c.calls
  apart : ∀ t u r r', c.readers t = some r → c.readers u = some r' → r.id = r'.id → t = u

theorem Fresh.uartInv (h : Fresh c) : UartInv cfg c := by
  obtain ⟨hput, hget, hfull⟩ := h.indices
  obtain ⟨harrived, htaken, hresults⟩ := h.empty
  have hsince : c.since = 0 := by simp [since, htaken, harrived]
  have hnone : ∀ t r, c.readers t ≠ some r := fun t r => by simp [h.readers t]
  refine ⟨⟨by simp [hsince], ?_, by simp [hfull]⟩, by simp [htaken],
    fun t r hr => absurd hr (hnone t r), by simp [hresults], fun t r hr => absurd hr (hnone t r),
    by simp [hresults], by simp [htaken], fun t u r r' hr => absurd hr (hnone t r)⟩
  rw [hput, hget, harrived]
  simpa [lastOf] using Ring.Holds.empty c.fifo.buffer cfg.bufsz

theorem UartInv.irq (h : UartInv cfg c) (h2 : 2 ≤ cfg.bufsz) (chs : List (BitVec 8)) :
    UartInv cfg (c.irq cfg chs) := by
  have harrived : (c.irq cfg chs).arrived.zipIdx =
      c.arrived.zipIdx ++ chs.zipIdx c.arrived.length := by
    simp [UartRx.irq, List.zipIdx_append]
  have hsince : (c.irq cfg chs).since = c.since + chs.length := by
    unfold since
    cases hlast : c.taken.getLast? with
    | none => simp [UartRx.irq, hlast]
    | some x =>
      obtain ⟨id, b, k⟩ := x
      have hmem : (b, k) ∈ c.taken.map Prod.snd :=
        List.mem_map_of_mem (List.mem_of_getLast? hlast)
      have hlt : k < c.arrived.length :=
        List.snd_lt_of_mem_zipIdx (List.mem_of_mem_take (h.taken.subset hmem))
      simp only [UartRx.irq, hlast, List.length_append]
      omega
  refine ⟨?_, ?_, h.reading, h.results, h.begun, h.ended, h.calls, h.apart⟩
  · rw [hsince, harrived]
    have hputs := FifoHolds.puts h2 (chs.zipIdx c.arrived.length) h.fifo
    rwa [List.length_zipIdx] at hputs
  · rw [hsince, harrived, List.take_append_of_le_length (by simp [UartRx.irq])]
    rw [show (c.irq cfg chs).arrived.length - (c.since + chs.length) =
      c.arrived.length - c.since by simp [UartRx.irq]; omega]
    exact h.taken

theorem UartInv.read {length : Nat} (h : UartInv cfg c) (hs : c.read t length = some c') :
    UartInv cfg c' := by
  unfold UartRx.read at hs
  split at hs
  · cases hs
  obtain rfl := Option.some.inj hs
  have hreader : ∀ u r, Function.update c.readers t (some ⟨c.calls, length, []⟩) u = some r →
      u = t ∧ r = ⟨c.calls, length, []⟩ ∨ c.readers u = some r := by
    intro u r hr
    by_cases hut : u = t
    · subst hut
      rw [Function.update_self] at hr
      exact Or.inl ⟨rfl, (Option.some.inj hr).symm⟩
    · rw [Function.update_of_ne hut] at hr
      exact Or.inr hr
  have hnone : c.takenBy c.calls = [] := by
    unfold takenBy
    rw [List.filter_eq_nil_iff.mpr fun x hx => by simpa using Nat.ne_of_lt (h.calls x hx)]
    rfl
  refine ⟨h.fifo, h.taken, fun u r hr => ?_, h.results, fun u r hr => ?_, fun id data hm => ?_,
    fun x hx => Nat.lt_succ_of_lt (h.calls x hx), fun u v r r' hr hr' hid => ?_⟩
  · rcases hreader u r hr with ⟨-, rfl⟩ | hr
    · exact hnone.symm
    · exact h.reading u r hr
  · rcases hreader u r hr with ⟨-, rfl⟩ | hr
    · exact Nat.lt_succ_self _
    · exact Nat.lt_succ_of_lt (h.begun u r hr)
  · obtain ⟨hlt, hne⟩ := h.ended id data hm
    refine ⟨Nat.lt_succ_of_lt hlt, fun u r hr => ?_⟩
    rcases hreader u r hr with ⟨-, rfl⟩ | hr
    · exact Nat.ne_of_gt hlt
    · exact hne u r hr
  · rcases hreader u r hr with ⟨hu, rfl⟩ | hold <;> rcases hreader v r' hr' with ⟨hv, rfl⟩ | hold'
    · exact hu.trans hv.symm
    · exact absurd hid.symm (Nat.ne_of_lt (h.begun v r' hold'))
    · exact absurd hid (Nat.ne_of_lt (h.begun u r hold))
    · exact h.apart u v r r' hold hold' hid

/-- A call that returns leaves the FIFO alone. -/
theorem UartInv.returns {r : SerialRead} (h : UartInv cfg c) (hr : c.readers t = some r) :
    UartInv cfg (c.returns t r) := by
  have hreader : ∀ u r', Function.update c.readers t none u = some r' → u ≠ t ∧ c.readers u = some r' := by
    intro u r' hu
    have hut : u ≠ t := by
      rintro rfl
      rw [Function.update_self] at hu
      cases hu
    rw [Function.update_of_ne hut] at hu
    exact ⟨hut, hu⟩
  refine ⟨h.fifo, h.taken, fun u r' hu => h.reading u r' (hreader u r' hu).2, fun id data hm => ?_,
    fun u r' hu => h.begun u r' (hreader u r' hu).2, fun id data hm => ?_, h.calls,
    fun u v r' r'' hu hv => h.apart u v r' r'' (hreader u r' hu).2 (hreader v r'' hv).2⟩
  · rcases List.mem_cons.mp hm with hm | hm
    · obtain ⟨rfl, rfl⟩ := Prod.mk.inj hm
      exact h.reading t r hr
    · exact h.results id data hm
  · rcases List.mem_cons.mp hm with hm | hm
    · obtain ⟨rfl, rfl⟩ := Prod.mk.inj hm
      exact ⟨h.begun t r hr, fun u r' hu hid =>
        (hreader u r' hu).1 (h.apart u t r' r (hreader u r' hu).2 hr hid)⟩
    · obtain ⟨hlt, hne⟩ := h.ended id data hm
      exact ⟨hlt, fun u r' hu => hne u r' (hreader u r' hu).2⟩

theorem UartInv.turn (h : UartInv cfg c) (h2 : 2 ≤ cfg.bufsz) (hs : c.turn cfg t = some c') :
    UartInv cfg c' := by
  obtain ⟨r, hr, rfl⟩ := Option.map_eq_some_iff.mp hs
  by_cases hlength : r.length = 0
  · rw [if_pos hlength]
    exact h.returns hr
  rw [if_neg hlength]
  rcases h.fifo.take h2 with ⟨-, hturn⟩ | ⟨hpos, f', ⟨b, k⟩, hturn, hv, hfifo⟩
  · rw [hturn]
    exact h.returns hr
  rw [hturn]
  dsimp only
  have hsince := h.fifo.since
  rw [List.length_zipIdx] at hv hsince
  obtain ⟨b', -, hpair⟩ : ∃ b', c.arrived[c.arrived.length - min c.since (cfg.bufsz - 1)]? = some b' ∧
      (b', c.arrived.length - min c.since (cfg.bufsz - 1)) = (b, k) := by
    rw [List.getElem?_zipIdx, Nat.zero_add] at hv
    exact Option.map_eq_some_iff.mp hv
  obtain ⟨-, hk⟩ := Prod.mk.inj hpair
  have hreader : ∀ u r', Function.update c.readers t
      (some ⟨r.id, r.length - 1, r.data ++ [b]⟩) u = some r' →
      ∃ old, c.readers u = some old ∧ r'.id = old.id ∧
        r'.data = if u = t then old.data ++ [b] else old.data := by
    intro u r' hu
    by_cases hut : u = t
    · subst hut
      rw [Function.update_self] at hu
      obtain rfl := Option.some.inj hu
      exact ⟨r, hr, rfl, (if_pos rfl).symm⟩
    · rw [Function.update_of_ne hut] at hu
      exact ⟨r', hu, rfl, (if_neg hut).symm⟩
  have hnew : ∀ readers : Tid → Option SerialRead, UartRx.since { c with
      fifo := f', readers := readers, taken := c.taken ++ [(r.id, b, k)] } =
      min c.since (cfg.bufsz - 1) - 1 := by
    intro readers
    have hlast : UartRx.since { c with
        fifo := f', readers := readers, taken := c.taken ++ [(r.id, b, k)] } =
        c.arrived.length - (k + 1) := by
      simp [since]
    rw [hlast]
    omega
  have htakenBy : ∀ (readers : Tid → Option SerialRead) id, UartRx.takenBy { c with
      fifo := f', readers := readers, taken := c.taken ++ [(r.id, b, k)] } id =
        if r.id = id then c.takenBy id ++ [b] else c.takenBy id := by
    intro readers id
    unfold takenBy
    by_cases hid : r.id = id <;> simp [List.filter_append, hid]
  refine ⟨?_, ?_, fun u r' hu => ?_, fun id data hm => ?_, fun u r' hu => ?_, fun id data hm => ?_,
    fun x hx => ?_, fun u v r' r'' hu hv hid => ?_⟩
  · rw [hnew]
    exact hfifo
  · rw [hnew, List.map_append,
      show c.arrived.length - (min c.since (cfg.bufsz - 1) - 1) =
        c.arrived.length - min c.since (cfg.bufsz - 1) + 1 by omega, List.take_add_one, hv]
    refine List.Sublist.append (h.taken.trans ?_) (List.Sublist.refl _)
    exact List.take_sublist_take_left (by omega)
  · obtain ⟨old, hold, hid, hdata⟩ := hreader u r' hu
    rw [htakenBy, hdata, hid]
    by_cases hut : u = t
    · subst hut
      obtain rfl := Option.some.inj (hr.symm.trans hold)
      rw [if_pos rfl, if_pos rfl, h.reading u r hr]
    · rw [if_neg hut, if_neg fun heq => hut (h.apart u t old r hold hr heq.symm),
        h.reading u old hold]
  · rw [htakenBy, if_neg ((h.ended id data hm).2 t r hr)]
    exact h.results id data hm
  · obtain ⟨old, hold, hid, -⟩ := hreader u r' hu
    exact hid ▸ h.begun u old hold
  · obtain ⟨hlt, hne⟩ := h.ended id data hm
    refine ⟨hlt, fun u r' hu => ?_⟩
    obtain ⟨old, hold, hid, -⟩ := hreader u r' hu
    exact hid ▸ hne u old hold
  · rcases List.mem_append.mp hx with hx | hx
    · exact h.calls x hx
    · obtain rfl := List.mem_singleton.mp hx
      exact h.begun t r hr
  · obtain ⟨old, hold, hid1, -⟩ := hreader u r' hu
    obtain ⟨old', hold', hid2, -⟩ := hreader v r'' hv
    exact h.apart u v old old' hold hold' (hid1.symm.trans (hid.trans hid2))

theorem reachable_uartInv (h2 : 2 ≤ cfg.bufsz) (hr : (uartMachine cfg).Reachable c) :
    UartInv cfg c := by
  apply hr.invariant
  · exact fun c h => h.uartInv
  · intro c l c' _ h hs
    cases l with
    | irq chs =>
      obtain rfl := Option.some.inj hs
      exact h.irq h2 chs
    | read t length => exact h.read hs
    | turn t => exact h.turn h2 hs

end UartRx

theorem uart_receive (cfg : SerialConfig) (h2 : 2 ≤ cfg.bufsz) :
    (∀ c, (uartMachine cfg).Reachable c → UartContract cfg c) ∧
      ∀ (rx_indicate already_output : Bool) (chs : List (BitVec 8)) (f : RxFifo (BitVec 8)),
        (rt_hw_serial_isr_rx cfg rx_indicate chs f already_output).1 =
          (uart_irq_process cfg rx_indicate chs f).1 := by
  refine ⟨fun c hr => ?_, fun rx_indicate already_output chs f => serialLoop_fifo chs f already_output⟩
  have h := UartRx.reachable_uartInv h2 hr
  exact ⟨h.fifo.indices h2, h.fifo.unread h2,
    h.taken.trans (List.take_sublist _ _), h.reading, h.results⟩

/-- A FIFO of four bytes, just opened. -/
def openedUart : UartRx :=
  { fifo := ⟨fun _ => (0, 0), 0, 0, false⟩, readers := fun _ => none, calls := 0
    arrived := [], taken := [], results := [] }

def fourBytes : SerialConfig := ⟨4, by decide⟩

/-- Five bytes arrive while a thread reads two. -/
def readTwoOfFive : List UartStep :=
  [.irq [10, 11], .read 1 2, .turn 1, .irq [12, 13, 14], .turn 1, .turn 1]

theorem uart_receive_overflow :
    (∃ c, Machine.runs (UartRx.step fourBytes) openedUart readTwoOfFive = some c ∧
      c.results = [(0, [10, 12])] ∧ c.fifo.unread fourBytes = [(13, 3), (14, 4)] ∧
        UartContract fourBytes c) ∧
      ∀ (rx_indicate already_output : Bool) (chs : List (BitVec 8)) (f : RxFifo (BitVec 8)),
        (rt_hw_serial_isr_rx fourBytes rx_indicate chs f already_output).1 =
          (uart_irq_process fourBytes rx_indicate chs f).1 := by
  obtain ⟨hruns, hsame⟩ := uart_receive fourBytes (by decide)
  have hrun : ∃ c, Machine.runs (UartRx.step fourBytes) openedUart readTwoOfFive = some c ∧
      c.results = [(0, [10, 12])] ∧ c.fifo.unread fourBytes = [(13, 3), (14, 4)] := by
    decide +kernel
  obtain ⟨c, hc, hresults, hunread⟩ := hrun
  have hfresh : openedUart.Fresh := ⟨⟨rfl, rfl, rfl⟩, fun _ => rfl, ⟨rfl, rfl, rfl⟩⟩
  exact ⟨⟨c, hc, hresults, hunread,
    hruns c ((Machine.Reachable.start hfresh).runs (fun _ _ _ hs => hs) hc)⟩, hsame⟩

end Ab32Vg1.Drivers
