import Ab32Vg1.Kernel.Def
import Ab32Vg1.ProofKit.Fuel

/-! The transmit paths of `serial.c`: `_serial_poll_tx` hands each byte to the driver once, and
`_serial_int_tx` waits and tries again when the driver is busy.  In stream mode both put a carriage
return before each newline. -/

namespace Ab32Vg1.Drivers

open ProofKit

/-- The driver under `putc`: how often it was called, and the bytes that it accepted. -/
structure SerialPort where
  calls : Nat
  accepted : List UInt8
  deriving DecidableEq, Repr

/-- `serial->ops->putc`, which returns -1 in the calls of the pattern `busy`: whether the byte was
accepted. -/
def SerialPort.putc (busy : Nat → Bool) (port : SerialPort) (ch : UInt8) : SerialPort × Bool :=
  if busy port.calls then ({ port with calls := port.calls + 1 }, false)
  else (⟨port.calls + 1, port.accepted ++ [ch]⟩, true)

/-- `'\r'`. -/
def carriageReturn : UInt8 := 13

/-- `'\n'`. -/
def newline : UInt8 := 10

/-- The loop of `_serial_poll_tx`. -/
def pollTxLoop (busy : Nat → Bool) (stream : Bool) : (data : List UInt8) → SerialPort → SerialPort
  | [], port => port
  | ch :: data, port =>
    let port := if ch = newline ∧ stream then (port.putc busy carriageReturn).1 else port
    pollTxLoop busy stream data (port.putc busy ch).1

/-- `_serial_poll_tx`: the driver and the count returned. -/
def serial_poll_tx (busy : Nat → Bool) (stream : Bool) (data : List UInt8) (port : SerialPort) :
    SerialPort × Nat :=
  (pollTxLoop busy stream data port, data.length)

/-- The loop of `_serial_int_tx`.  A refused byte waits for the completion and starts the turn again,
from the test for a newline on. -/
@[grind] def intTxLoop (busy : Nat → Bool) (stream : Bool) :
    (fuel : Nat) → (data : List UInt8) → SerialPort → Option SerialPort
  | 0, _, _ => none
  | _ + 1, [], port => some port
  | fuel + 1, ch :: data, port =>
    let (port, ok) :=
      if ch = newline ∧ stream then port.putc busy carriageReturn else (port, true)
    if ok then
      let (port, ok) := port.putc busy ch
      if ok then intTxLoop busy stream fuel data port
      else intTxLoop busy stream fuel (ch :: data) port
    else intTxLoop busy stream fuel (ch :: data) port

/-- `_serial_int_tx`: the driver and the count returned. -/
def serial_int_tx (busy : Nat → Bool) (stream : Bool) (fuel : Nat) (data : List UInt8)
    (port : SerialPort) : Option (SerialPort × Nat) :=
  (intTxLoop busy stream fuel data port).map fun port => (port, data.length)

/-- The text with a carriage return before each newline, in stream mode. -/
def expanded (stream : Bool) (data : List UInt8) : List UInt8 :=
  data.flatMap fun ch => if ch = newline ∧ stream then [carriageReturn, ch] else [ch]

/-- `m` is the first call from `n` on in which the driver is not busy. -/
structure FirstReady (busy : Nat → Bool) (n m : Nat) : Prop where
  le : n ≤ m
  ready : busy m = false
  busy : ∀ k, n ≤ k → k < m → busy k = true

/-- From the call `n` on the driver accepts each byte in the end, and in stream mode it is not busy in
the call after the one that takes the carriage return of a newline. -/
def NewlinesFollow (busy : Nat → Bool) (stream : Bool) : (data : List UInt8) → (n : Nat) → Prop
  | [], _ => True
  | ch :: data, n =>
    ∃ m, FirstReady busy n m ∧
      if ch = newline ∧ stream then
        busy (m + 1) = false ∧ NewlinesFollow busy stream data (m + 2)
      else NewlinesFollow busy stream data (m + 1)

section

variable {busy : Nat → Bool} {stream : Bool} {ch : UInt8} {data : List UInt8} {p : SerialPort}
  {n m : Nat}

/-! ### The driver -/

theorem SerialPort.putc_busy (h : busy p.calls = true) (ch : UInt8) :
    p.putc busy ch = ({ p with calls := p.calls + 1 }, false) :=
  if_pos h

theorem SerialPort.putc_ready (h : busy p.calls = false) (ch : UInt8) :
    p.putc busy ch = (⟨p.calls + 1, p.accepted ++ [ch]⟩, true) :=
  if_neg (by rw [h]; exact Bool.false_ne_true)

theorem expanded_cons (stream : Bool) (ch : UInt8) (data : List UInt8) :
    expanded stream (ch :: data) =
      (if ch = newline ∧ stream then [carriageReturn, ch] else [ch]) ++ expanded stream data :=
  List.flatMap_cons

theorem FirstReady.self (h : busy n = false) : FirstReady busy n n :=
  ⟨Nat.le_refl n, h, fun _ hle hlt => absurd hle (Nat.not_le.mpr hlt)⟩

/-- The first call that is not busy is not a busy one. -/
theorem FirstReady.cons (hb : busy n = true) (h : FirstReady busy (n + 1) m) : FirstReady busy n m := by
  refine ⟨Nat.le_of_succ_le h.le, h.ready, fun k hle hlt => ?_⟩
  by_cases hk : k = n
  · rw [hk, hb]
  · exact h.busy k (by omega) hlt

/-- A driver that is not busy for ever has a first call in which it is not. -/
theorem firstReady_of_later {k : Nat} (hle : n ≤ k) (hk : busy k = false) :
    ∃ m, FirstReady busy n m := by
  induction h : k - n generalizing n with
  | zero =>
    have hkn : k = n := by omega
    exact ⟨n, .self (hkn ▸ hk)⟩
  | succ d ih =>
    cases hn : busy n with
    | false => exact ⟨n, .self hn⟩
    | true =>
      obtain ⟨m, hm⟩ := ih (n := n + 1) (by omega) (by omega)
      exact ⟨m, hm.cons hn⟩

/-- Without a newline to expand, a driver that always becomes ready again takes the bytes as they
are. -/
theorem newlinesFollow_of_plain (hlater : ∀ n, ∃ k, n ≤ k ∧ busy k = false)
    (hplain : ∀ ch ∈ data, ¬ (ch = newline ∧ stream)) : NewlinesFollow busy stream data n := by
  induction data generalizing n with
  | nil => trivial
  | cons ch data ih =>
    obtain ⟨k, hle, hk⟩ := hlater n
    obtain ⟨m, hm⟩ := firstReady_of_later hle hk
    refine ⟨m, hm, ?_⟩
    rw [if_neg (hplain ch List.mem_cons_self)]
    exact ih fun c hc => hplain c (List.mem_cons_of_mem _ hc)

theorem NewlinesFollow.cons_busy (hb : busy n = true)
    (h : NewlinesFollow busy stream (ch :: data) (n + 1)) :
    NewlinesFollow busy stream (ch :: data) n := by
  obtain ⟨m, hm, hrest⟩ := h
  exact ⟨m, hm.cons hb, hrest⟩

/-! ### Polling -/

/-- On a driver that is never busy the polled path sends the expanded text. -/
theorem pollTxLoop_accepted (stream : Bool) (data : List UInt8) (p : SerialPort) :
    (pollTxLoop (fun _ => false) stream data p).accepted =
      p.accepted ++ expanded stream data := by
  induction data generalizing p with
  | nil => exact (List.append_nil _).symm
  | cons ch data ih =>
    rw [pollTxLoop, ih, SerialPort.putc_ready rfl, expanded_cons]
    split
    · rw [SerialPort.putc_ready rfl]
      simp
    · simp

/-! ### Turns of the loop of `_serial_int_tx` -/

/-- A busy driver takes nothing, and the turn starts again. -/
theorem intTxLoop_busy (hb : busy p.calls = true) (fuel : Nat) :
    intTxLoop busy stream (fuel + 1) (ch :: data) p =
      intTxLoop busy stream fuel (ch :: data) { p with calls := p.calls + 1 } := by
  by_cases hn : ch = newline ∧ stream
  · simp only [intTxLoop, if_pos hn, SerialPort.putc_busy hb, Bool.false_eq_true, if_false]
  · simp only [intTxLoop, if_neg hn, SerialPort.putc_busy hb, Bool.false_eq_true, if_false, if_true]

theorem intTxLoop_plain (hn : ¬ (ch = newline ∧ stream)) (hb : busy p.calls = false) (fuel : Nat) :
    intTxLoop busy stream (fuel + 1) (ch :: data) p =
      intTxLoop busy stream fuel data ⟨p.calls + 1, p.accepted ++ [ch]⟩ := by
  simp only [intTxLoop, if_neg hn, SerialPort.putc_ready hb, if_true]

theorem intTxLoop_newline (hn : ch = newline ∧ stream) (hb : busy p.calls = false)
    (hb' : busy (p.calls + 1) = false) (fuel : Nat) :
    intTxLoop busy stream (fuel + 1) (ch :: data) p =
      intTxLoop busy stream fuel data
        ⟨p.calls + 2, p.accepted ++ [carriageReturn, ch]⟩ := by
  have hsecond := SerialPort.putc_ready
    (p := ⟨p.calls + 1, p.accepted ++ [carriageReturn]⟩) hb' ch
  simp only [intTxLoop, if_pos hn, SerialPort.putc_ready hb, if_true, hsecond, List.append_assoc,
    List.cons_append, List.nil_append]

/-- The carriage return is accepted and the newline refused: the next turn sends a second carriage
return. -/
theorem intTxLoop_again (hn : ch = newline ∧ stream) (hb : busy p.calls = false)
    (hb' : busy (p.calls + 1) = true) (fuel : Nat) :
    intTxLoop busy stream (fuel + 1) (ch :: data) p =
      intTxLoop busy stream fuel (ch :: data)
        ⟨p.calls + 2, p.accepted ++ [carriageReturn]⟩ := by
  have hsecond := SerialPort.putc_busy
    (p := ⟨p.calls + 1, p.accepted ++ [carriageReturn]⟩) hb' ch
  simp only [intTxLoop, if_pos hn, SerialPort.putc_ready hb, if_true, hsecond, Bool.false_eq_true,
    if_false]

/-! ### The whole loop -/

/-- What was sent when the loop ended is no shorter than the expanded text, and of its length only
when each newline followed its carriage return. -/
theorem intTxLoop_sent {fuel : Nat} {p' : SerialPort}
    (h : intTxLoop busy stream fuel data p = some p') :
    ∃ sent, p'.accepted = p.accepted ++ sent ∧
      (expanded stream data).length ≤ sent.length ∧
      (sent.length = (expanded stream data).length →
        NewlinesFollow busy stream data p.calls) := by
  induction fuel generalizing data p with
  | zero => cases h
  | succ fuel ih =>
    cases data with
    | nil =>
      cases h
      exact ⟨[], (List.append_nil _).symm, Nat.le_refl _, fun _ => trivial⟩
    | cons ch data =>
      cases hb : busy p.calls with
      | true =>
        rw [intTxLoop_busy hb] at h
        obtain ⟨sent, hacc, hlen, hfollow⟩ := ih h
        exact ⟨sent, hacc, hlen, fun heq => (hfollow heq).cons_busy hb⟩
      | false =>
        by_cases hn : ch = newline ∧ stream
        · cases hb' : busy (p.calls + 1) with
          | true =>
            rw [intTxLoop_again hn hb hb'] at h
            obtain ⟨sent, hacc, hlen, -⟩ := ih h
            refine ⟨carriageReturn :: sent, by rw [hacc, List.append_assoc]; rfl, ?_, fun heq => ?_⟩
            · exact Nat.le_succ_of_le hlen
            · rw [List.length_cons] at heq
              omega
          | false =>
            rw [intTxLoop_newline hn hb hb'] at h
            obtain ⟨sent, hacc, hlen, hfollow⟩ := ih h
            have hexp : (expanded stream (ch :: data)).length = (expanded stream data).length + 2 := by
              rw [expanded_cons, if_pos hn, List.length_append, Nat.add_comm]
              rfl
            refine ⟨carriageReturn :: ch :: sent, by rw [hacc, List.append_assoc]; rfl, ?_,
              fun heq => ⟨_, .self hb, ?_⟩⟩
            · rw [hexp]
              exact Nat.add_le_add_right hlen 2
            · rw [if_pos hn]
              rw [hexp] at heq
              exact ⟨hb', hfollow (by simpa using heq)⟩
        · rw [intTxLoop_plain hn hb] at h
          obtain ⟨sent, hacc, hlen, hfollow⟩ := ih h
          have hexp : (expanded stream (ch :: data)).length = (expanded stream data).length + 1 := by
            rw [expanded_cons, if_neg hn, List.length_append, Nat.add_comm]
            rfl
          refine ⟨ch :: sent, by rw [hacc, List.append_assoc]; rfl, ?_, fun heq => ⟨_, .self hb, ?_⟩⟩
          · rw [hexp]
            exact Nat.add_le_add_right hlen 1
          · rw [if_neg hn]
            rw [hexp] at heq
            exact hfollow (by simpa using heq)

/-- While the driver is busy the loop waits. -/
theorem intTxLoop_waits {acc : List UInt8} {N : Nat} {P : SerialPort → Prop}
    (hm : FirstReady busy n m)
    (h : Returns (fun fuel => intTxLoop busy stream fuel (ch :: data) ⟨m, acc⟩) N P) :
    Returns (fun fuel => intTxLoop busy stream fuel (ch :: data) ⟨n, acc⟩) (N + (m - n)) P := by
  have hle := hm.le
  induction hd : m - n generalizing n with
  | zero =>
    have hmn : m = n := by omega
    exact hmn ▸ h
  | succ d ih =>
    have hb : busy n = true := hm.busy n (Nat.le_refl _) (by omega)
    have hrest : FirstReady busy (n + 1) m :=
      ⟨by omega, hm.ready, fun k hk hlt => hm.busy k (by omega) hlt⟩
    have hr := ih hrest hrest.le (by omega)
    exact .step rfl (fun k => intTxLoop_busy (p := ⟨n, acc⟩) hb k) hr

/-- Where each newline follows its carriage return the loop ends, and it sent the expanded text. -/
theorem intTxLoop_returns (acc : List UInt8) (h : NewlinesFollow busy stream data n) :
    ∃ N, Returns (fun fuel => intTxLoop busy stream fuel data ⟨n, acc⟩) N fun p =>
      p.accepted = acc ++ expanded stream data := by
  induction data generalizing n acc with
  | nil => exact ⟨0, .stop rfl (fun k => rfl) (List.append_nil _).symm⟩
  | cons ch data ih =>
    obtain ⟨m, hm, hrest⟩ := h
    by_cases hn : ch = newline ∧ stream
    · rw [if_pos hn] at hrest
      obtain ⟨N, hN⟩ := ih (acc ++ [carriageReturn, ch]) hrest.2
      refine ⟨_, intTxLoop_waits hm (.step rfl
        (fun k => intTxLoop_newline (p := ⟨m, acc⟩) hn hm.ready hrest.1 k)
        (hN.weaken fun p hp => ?_))⟩
      rw [hp, expanded_cons, if_pos hn, List.append_assoc]
    · rw [if_neg hn] at hrest
      obtain ⟨N, hN⟩ := ih (acc ++ [ch]) hrest
      refine ⟨_, intTxLoop_waits hm (.step rfl
        (fun k => intTxLoop_plain (p := ⟨m, acc⟩) hn hm.ready k)
        (hN.weaken fun p hp => ?_))⟩
      rw [hp, expanded_cons, if_neg hn, List.append_assoc]

end

/-! ### The two paths -/

/-- A driver that was not called yet. -/
def SerialPort.fresh : SerialPort := ⟨0, []⟩

/-- `_serial_int_tx` returns; on a driver with the pattern `busy` it sends what `_serial_poll_tx` sends
on one that is never busy, the expanded text, and both return the length. -/
def TxAgrees (busy : Nat → Bool) (stream : Bool) (data : List UInt8) : Prop :=
  let polled := serial_poll_tx (fun _ => false) stream data .fresh
  polled.1.accepted = expanded stream data ∧ polled.2 = data.length ∧
    ∃ n, Returns (fun fuel => serial_int_tx busy stream fuel data .fresh) n fun r =>
      r.1.accepted = polled.1.accepted ∧ r.2 = data.length

/-- The two transmit paths agree just where each newline follows its carriage return. -/
theorem serial_tx_agrees (busy : Nat → Bool) (stream : Bool) (data : List UInt8) :
    TxAgrees busy stream data ↔ NewlinesFollow busy stream data 0 := by
  have hpoll := pollTxLoop_accepted stream data .fresh
  rw [SerialPort.fresh, List.nil_append] at hpoll
  constructor
  · rintro ⟨-, -, n, hn⟩
    obtain ⟨r, hr⟩ := hn.total (Nat.lt_succ_self n)
    obtain ⟨port, hport, rfl⟩ := Option.map_eq_some_iff.mp hr
    obtain ⟨sent, hacc, -, hfollow⟩ := intTxLoop_sent hport
    have hsent : port.accepted = expanded stream data := (hn.post hr).1.trans hpoll
    rw [SerialPort.fresh, List.nil_append] at hacc
    exact hfollow (by rw [← hacc, hsent])
  · intro h
    obtain ⟨n, hn⟩ := intTxLoop_returns [] h
    exact ⟨hpoll, rfl, n, hn.map fun port hp => ⟨hp.trans hpoll.symm, rfl⟩⟩

/-- A driver that is busy in the second call only, in stream mode: the newline goes out with two
carriage returns. -/
theorem serial_tx_differs :
    ¬ ∀ busy : Nat → Bool, (∀ n, ∃ k, n ≤ k ∧ busy k = false) →
      ∀ stream data, TxAgrees busy stream data := by
  intro h
  have hlater (n : Nat) : ∃ k, n ≤ k ∧ (k == 1) = false := by
    refine ⟨n + 2, by omega, ?_⟩
    rw [beq_eq_false_iff_ne]
    omega
  obtain ⟨-, -, n, hn⟩ := h (· == 1) hlater true [newline]
  have hrun : serial_int_tx (· == 1) true (n + 3) [newline] .fresh =
      some (⟨4, [carriageReturn, carriageReturn, newline]⟩, 1) := rfl
  have hsent := (hn.post hrun).1
  revert hsent
  decide

end Ab32Vg1.Drivers
