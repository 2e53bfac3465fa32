import Ab32Vg1.Drivers.I2c

/-! The waveform of `i2c_bit_xfer`, read by the rules of the bus, is the transfer that the messages
ask for. -/

namespace Ab32Vg1.Drivers

open Kernel ProofKit

/-- No slave holds SCL as long as the timeout. -/
def I2cDevice.Patient (dev : I2cDevice) : Prop := ∀ n, ∀ t ∈ dev.slave.low n, t < dev.timeout

namespace I2cBus

variable {dev : I2cDevice} {bus : I2cBus} {ev : List WireEvent} {turns : Nat}
  {sda level turn val : Bool}

def decoder (bus : I2cBus) : WireDecoder := WireDecoder.idle.run bus.wave

theorem decoder_record : bus.record.decoder =
    bus.decoder.sample (bus.sda && bus.slave_sda, bus.scl && !bus.held) :=
  WireDecoder.run_snoc _ _ _

/-- SCL is low and the slaves leave SDA alone. -/
structure Low (bus : I2cBus) (ev : List WireEvent) (turns : Nat) (sda : Bool) : Prop where
  driven : bus.sda = sda
  scl : bus.scl = false
  slave_sda : bus.slave_sda = true
  turns : bus.turns = turns
  decoder : bus.decoder = ⟨sda, false, false, ev⟩

/-- SCL is high, and SDA has been at `level` since before it rose. -/
structure Clocked (bus : I2cBus) (ev : List WireEvent) (turns : Nat) (level : Bool) : Prop where
  scl : bus.scl = true
  held : bus.held = false
  turns : bus.turns = turns
  line : (bus.sda && bus.slave_sda) = level
  decoder : bus.decoder = ⟨level, true, false, ev⟩

/-- Both lines are high and nobody drives them. -/
structure Free (bus : I2cBus) (ev : List WireEvent) (turns : Nat) : Prop where
  scl : bus.scl = true
  held : bus.held = false
  slave_sda : bus.slave_sda = true
  turns : bus.turns = turns
  decoder : ∃ moved, bus.decoder = ⟨true, true, moved, ev⟩

theorem Low.SET_SDA (h : Low bus ev turns sda) (val : Bool) : Low (bus.SET_SDA val) ev turns val := by
  refine ⟨rfl, h.scl, h.slave_sda, h.turns, ?_⟩
  rw [I2cBus.SET_SDA, decoder_record]
  show bus.decoder.sample (val && bus.slave_sda, bus.scl && !bus.held) = _
  rw [h.decoder, h.scl, h.slave_sda]
  simp

theorem Low.SCL_L (h : Low bus ev turns sda) : Low bus.SCL_L ev turns sda := by
  refine ⟨h.driven, rfl, rfl, h.turns, ?_⟩
  rw [I2cBus.SCL_L, decoder_record]
  show (record { bus with scl := false }).decoder.sample (bus.sda && true, false) = _
  rw [decoder_record]
  show (bus.decoder.sample (bus.sda && bus.slave_sda, false)).sample _ = _
  rw [h.decoder, h.driven]
  simp

/-- A clock period ends and carries its level. -/
theorem Clocked.SCL_L (h : Clocked bus ev turns level) :
    Low bus.SCL_L (ev ++ [.bit level]) turns bus.sda := by
  refine ⟨rfl, rfl, rfl, h.turns, ?_⟩
  rw [I2cBus.SCL_L, decoder_record]
  show (record { bus with scl := false }).decoder.sample (bus.sda && true, false) = _
  rw [decoder_record]
  show (bus.decoder.sample (bus.sda && bus.slave_sda, false)).sample _ = _
  rw [h.decoder]
  simp

/-- A slave that is patient lets SCL go high. -/
theorem Low.SCL_H (h : Low bus ev turns sda) (hdev : dev.Patient) (turn : Bool) :
    (bus.SCL_H dev turn).2 = RT_EOK ∧
      Clocked (bus.SCL_H dev turn).1 ev (if turn then turns + 1 else turns)
        (sda && (!turn || dev.slave.bits turns)) ∧ (bus.SCL_H dev turn).1.sda = sda ∧
      (turn = false → (bus.SCL_H dev turn).1.slave_sda = true) := by
  have hlow : ∀ n, ¬(dev.slave.low n).any (dev.timeout < ·) = true := by
    intro n hany
    obtain ⟨t, ht, hlt⟩ := List.any_eq_true.mp hany
    have := hdev n t ht
    simp only [decide_eq_true_eq] at hlt
    omega
  cases turn with
  | false =>
    simp only [I2cBus.SCL_H, Bool.false_eq_true, if_false, if_neg (hlow _), true_and]
    refine ⟨⟨rfl, rfl, h.turns, ?_, ?_⟩, h.driven, fun _ => h.slave_sda⟩
    · show (bus.sda && bus.slave_sda) = _
      rw [h.driven, h.slave_sda]
      simp
    · rw [decoder_record]
      show bus.decoder.sample (bus.sda && bus.slave_sda, true) = _
      rw [h.decoder, h.driven, h.slave_sda]
      simp
  | true =>
    simp only [I2cBus.SCL_H, if_true, if_neg (hlow _), true_and]
    refine ⟨⟨rfl, rfl, ?_, ?_, ?_⟩, h.driven, fun hc => by cases hc⟩
    · show bus.turns + 1 = _
      rw [h.turns]
    · show (bus.sda && dev.slave.bits bus.turns) = _
      rw [h.driven, h.turns]
      simp
    · rw [decoder_record]
      show (bus.slaveTurn dev).decoder.sample (bus.sda && dev.slave.bits bus.turns, true) = _
      rw [slaveTurn, decoder_record]
      show (bus.decoder.sample (bus.sda && dev.slave.bits bus.turns, bus.scl && !bus.held)).sample _ = _
      rw [h.decoder, h.driven, h.scl, h.turns]
      simp

/-! ### Conditions -/

theorem Free.i2c_start (h : Free bus ev turns) : Low bus.i2c_start (ev ++ [.start]) turns false := by
  obtain ⟨moved, hdecoder⟩ := h.decoder
  refine ⟨rfl, rfl, rfl, h.turns, ?_⟩
  rw [I2cBus.i2c_start, I2cBus.SCL_L, decoder_record]
  show (record { bus.SET_SDA false with scl := false }).decoder.sample (false, false) = _
  rw [decoder_record]
  show ((bus.SET_SDA false).decoder.sample (false, false)).sample (false, false) = _
  rw [I2cBus.SET_SDA, decoder_record]
  show ((bus.decoder.sample (false, bus.scl && !bus.held)).sample (false, false)).sample _ = _
  rw [hdecoder, h.scl, h.held]
  simp

theorem Low.i2c_restart (h : Low bus ev turns sda) (hdev : dev.Patient) :
    Low (bus.i2c_restart dev) (ev ++ [.start]) turns false := by
  obtain ⟨-, hclock, -, hslave⟩ := (h.SET_SDA true).SCL_H hdev false
  have hfree : Free ((bus.SET_SDA true).SCL_H dev false).1 ev turns :=
    ⟨hclock.scl, hclock.held, hslave rfl, hclock.turns, false, hclock.decoder⟩
  exact hfree.i2c_start

theorem Low.i2c_stop (h : Low bus ev turns sda) (hdev : dev.Patient) :
    Free (bus.i2c_stop dev) (ev ++ [.stop]) turns := by
  obtain ⟨-, hclock, -, hslave⟩ := (h.SET_SDA false).SCL_H hdev false
  refine ⟨hclock.scl, hclock.held, hslave rfl, hclock.turns, true, ?_⟩
  rw [I2cBus.i2c_stop, I2cBus.SET_SDA, decoder_record]
  show ((bus.SET_SDA false).SCL_H dev false).1.decoder.sample
    (true && ((bus.SET_SDA false).SCL_H dev false).1.slave_sda,
      ((bus.SET_SDA false).SCL_H dev false).1.scl && !((bus.SET_SDA false).SCL_H dev false).1.held) = _
  rw [hclock.decoder, hclock.scl, hclock.held, hslave rfl]
  simp

/-! ### Bytes -/

theorem Low.i2c_waitack (h : Low bus ev turns sda) (hdev : dev.Patient) :
    Low (bus.i2c_waitack dev).1 (ev ++ [.bit (dev.slave.bits turns)]) (turns + 1) true ∧
      (bus.i2c_waitack dev).2 = if dev.slave.bits turns then 0 else 1 := by
  obtain ⟨hret, hclock, hsda, -⟩ := (h.SET_SDA true).SCL_H hdev true
  simp only [Bool.not_true, Bool.false_or, Bool.true_and, if_true] at hclock
  have hget : ((bus.SET_SDA true).SCL_H dev true).1.GET_SDA = dev.slave.bits turns := hclock.line
  have hlow := hclock.SCL_L
  rw [hsda] at hlow
  rw [I2cBus.i2c_waitack]
  generalize (bus.SET_SDA true).SCL_H dev true = r at hret hget hlow
  obtain ⟨b, ret⟩ := r
  simp only at hret hget hlow
  simp only [hret, RT_EOK, lt_irrefl, if_false]
  exact ⟨hlow, by rw [hget]⟩

/-- The first `i` bits of a byte from bit `i - 1` down. -/
def levelsFrom (data : I2cByte) : Nat → List Bool
  | 0 => []
  | i + 1 => data.getLsbD i :: levelsFrom data i

theorem writeLoop_low (hdev : dev.Patient) (data : I2cByte) (i : Nat) :
    ∀ {bus : I2cBus} {ev : List WireEvent} {sda : Bool}, Low bus.SCL_L ev turns sda →
      (writeLoop dev data i bus).2 = RT_EOK ∧
        ∃ sda, Low (writeLoop dev data i bus).1.SCL_L (ev ++ (levelsFrom data i).map .bit) turns sda := by
  induction i with
  | zero =>
    intro bus ev sda h
    refine ⟨rfl, sda, ?_⟩
    simpa [levelsFrom, writeLoop] using h
  | succ i ih =>
    intro bus ev sda h
    obtain ⟨hret, hclock, hsda, -⟩ := (h.SET_SDA (data.getLsbD i)).SCL_H hdev false
    simp only [Bool.not_false, Bool.true_or, Bool.and_true, Bool.false_eq_true, if_false] at hclock
    rw [writeLoop]
    generalize (bus.SCL_L.SET_SDA (data.getLsbD i)).SCL_H dev false = r at hret hclock
    obtain ⟨b, ret⟩ := r
    simp only at hret hclock
    simp only [hret, RT_EOK, lt_irrefl, if_false]
    have hrest := ih hclock.SCL_L
    simp only [RT_EOK, List.append_assoc] at hrest
    exact hrest

theorem Low.i2c_writeb (h : Low bus ev turns sda) (hdev : dev.Patient) (data : I2cByte) :
    Low (bus.i2c_writeb dev data).1
      (ev ++ (byteLevels data ++ [dev.slave.bits turns]).map .bit) (turns + 1) true ∧
        (bus.i2c_writeb dev data).2 = if dev.slave.bits turns then 0 else 1 := by
  obtain ⟨hret, sda', hlow⟩ := writeLoop_low hdev data 8 h.SCL_L
  rw [I2cBus.i2c_writeb]
  generalize writeLoop dev data 8 bus = r at hret hlow
  obtain ⟨b, ret⟩ := r
  simp only at hret hlow
  simp only [hret, RT_EOK, lt_irrefl, if_false]
  have hack := hlow.i2c_waitack hdev
  rw [List.append_assoc] at hack
  rw [List.map_append]
  exact hack

/-- The byte that the next bits of the slaves make. -/
def slaveByte (slave : I2cSlave) (turns : Nat) : (n : Nat) → (data : I2cByte) → I2cByte
  | 0, data => data
  | n + 1, data => slaveByte slave (turns + 1) n (data <<< 1 ||| if slave.bits turns then 1 else 0)

theorem readLoop_low (hdev : dev.Patient) (n : Nat) :
    ∀ {bus : I2cBus} {ev : List WireEvent} {turns : Nat} (data : I2cByte), Low bus ev turns true →
      (readLoop dev n data bus).2 = some (slaveByte dev.slave turns n data) ∧
        Low (readLoop dev n data bus).1
          (ev ++ ((List.range' turns n).map dev.slave.bits).map .bit) (turns + n) true := by
  induction n with
  | zero =>
    intro bus ev turns data h
    refine ⟨rfl, ?_⟩
    simpa [readLoop] using h
  | succ n ih =>
    intro bus ev turns data h
    obtain ⟨hret, hclock, hsda, -⟩ := h.SCL_H hdev true
    simp only [Bool.not_true, Bool.false_or, Bool.true_and, if_true] at hclock
    have hget : (bus.SCL_H dev true).1.GET_SDA = dev.slave.bits turns := hclock.line
    have hlow := hclock.SCL_L
    rw [hsda] at hlow
    rw [readLoop, slaveByte, List.range'_succ]
    generalize bus.SCL_H dev true = r at hret hget hlow
    obtain ⟨b, ret⟩ := r
    simp only at hret hget hlow
    simp only [hret, RT_EOK, lt_irrefl, if_false, hget]
    have hrest := ih (data <<< 1 ||| if dev.slave.bits turns then 1 else 0) hlow
    rw [show turns + (n + 1) = turns + 1 + n by omega]
    simpa using hrest

/-- The bits of the byte are those of the slaves. -/
theorem byteLevels_slaveByte (slave : I2cSlave) (turns : Nat) :
    byteLevels (slaveByte slave turns 8 0) = (List.range' turns 8).map slave.bits := by
  simp only [slaveByte, List.range'_succ, List.range'_zero, List.map_cons, List.map_nil]
  generalize slave.bits turns = b0, slave.bits (turns + 1) = b1, slave.bits (turns + 1 + 1) = b2,
    slave.bits (turns + 1 + 1 + 1) = b3, slave.bits (turns + 1 + 1 + 1 + 1) = b4,
    slave.bits (turns + 1 + 1 + 1 + 1 + 1) = b5, slave.bits (turns + 1 + 1 + 1 + 1 + 1 + 1) = b6,
    slave.bits (turns + 1 + 1 + 1 + 1 + 1 + 1 + 1) = b7
  revert b0 b1 b2 b3 b4 b5 b6 b7
  decide

theorem Low.i2c_readb (h : Low bus ev turns sda) (hdev : dev.Patient) :
    ∃ data, (bus.i2c_readb dev).2 = some data ∧
      byteLevels data = (List.range' turns 8).map dev.slave.bits ∧
      Low (bus.i2c_readb dev).1 (ev ++ (byteLevels data).map .bit) (turns + 8) true := by
  obtain ⟨hdata, hlow⟩ := readLoop_low hdev 8 0 (h.SET_SDA true)
  refine ⟨slaveByte dev.slave turns 8 0, hdata, byteLevels_slaveByte dev.slave turns, ?_⟩
  rw [byteLevels_slaveByte]
  exact hlow

theorem Low.i2c_send_ack_or_nack (h : Low bus ev turns true) (hdev : dev.Patient) (ack : Bool) :
    (bus.i2c_send_ack_or_nack dev ack).2 = RT_EOK ∧
      ∃ sda, Low (bus.i2c_send_ack_or_nack dev ack).1 (ev ++ [.bit !ack]) turns sda := by
  have hlow : Low (if ack then bus.SET_SDA false else bus) ev turns (!ack) := by
    cases ack with
    | false => exact h
    | true => exact h.SET_SDA false
  obtain ⟨hret, hclock, hsda, -⟩ := hlow.SCL_H hdev false
  simp only [Bool.not_false, Bool.true_or, Bool.and_true, Bool.false_eq_true, if_false] at hclock
  rw [I2cBus.i2c_send_ack_or_nack]
  generalize (if ack then bus.SET_SDA false else bus).SCL_H dev false = r at hret hclock
  obtain ⟨b, ret⟩ := r
  simp only at hret hclock
  simp only [hret, RT_EOK, lt_irrefl, if_false, true_and]
  exact ⟨_, hclock.SCL_L⟩

/-! ### Items -/

/-- SCL is low, and the bus has shown the items. -/
def Did (dev : I2cDevice) (bus : I2cBus) (items : List I2cItem) : Prop :=
  ∃ turns sda, Low bus (items.flatMap I2cItem.events) turns sda ∧
    items.flatMap I2cItem.slaveBits = (List.range turns).map dev.slave.bits

variable {items : List I2cItem} {data : I2cByte}

theorem range_map_succ (f : Nat → Bool) (n : Nat) :
    (List.range (n + 1)).map f = (List.range n).map f ++ [f n] := by
  rw [List.range_succ, List.map_append, List.map_singleton]

theorem Did.i2c_restart (h : Did dev bus items) (hdev : dev.Patient) :
    Did dev (bus.i2c_restart dev) (items ++ [.start]) := by
  obtain ⟨turns, sda, hlow, hbits⟩ := h
  refine ⟨turns, false, ?_, by simpa [I2cItem.slaveBits] using hbits⟩
  simpa [I2cItem.events] using hlow.i2c_restart hdev

/-- The master takes the bus again after a stop. -/
theorem Did.stop_start (h : Did dev bus items) (hdev : dev.Patient) :
    Did dev (bus.i2c_stop dev).i2c_start (items ++ [.stop, .start]) := by
  obtain ⟨turns, sda, hlow, hbits⟩ := h
  refine ⟨turns, false, ?_, by simpa [I2cItem.slaveBits] using hbits⟩
  simpa [I2cItem.events] using (hlow.i2c_stop hdev).i2c_start

/-- A byte is written and acknowledged or not. -/
theorem Did.i2c_writeb (h : Did dev bus items) (hdev : dev.Patient) (data : I2cByte) :
    ∃ ack, (bus.i2c_writeb dev data).2 = (if ack then 1 else 0) ∧
      (∀ covered, Did dev (bus.i2c_writeb dev data).1 (items ++ [.wrote data ack covered])) ∧
      (ack = false → Did dev (bus.i2c_writeb dev data).1 (items ++ [.retried data])) := by
  obtain ⟨turns, sda, hlow, hbits⟩ := h
  obtain ⟨hbyte, hret⟩ := hlow.i2c_writeb hdev data
  refine ⟨!dev.slave.bits turns, by rw [hret]; cases dev.slave.bits turns <;> rfl, fun covered => ?_,
    fun hack => ?_⟩
  · refine ⟨turns + 1, true, ?_, ?_⟩
    · simpa [I2cItem.events] using hbyte
    · rw [range_map_succ, List.flatMap_append, hbits]
      simp [I2cItem.slaveBits]
  · have hnack : dev.slave.bits turns = true := by simpa using hack
    refine ⟨turns + 1, true, ?_, ?_⟩
    · simpa [I2cItem.events, hnack] using hbyte
    · rw [range_map_succ, List.flatMap_append, hbits]
      simp [I2cItem.slaveBits, hnack]

theorem range_map_add (f : Nat → Bool) (n m : Nat) :
    (List.range (n + m)).map f = (List.range n).map f ++ (List.range' n m).map f := by
  rw [List.range_add, List.map_append, List.range'_eq_map_range]

theorem Did.i2c_readb (h : Did dev bus items) (hdev : dev.Patient) :
    ∃ data turns, (bus.i2c_readb dev).2 = some data ∧
      Low (bus.i2c_readb dev).1 (items.flatMap I2cItem.events ++ (byteLevels data).map .bit) turns true ∧
      items.flatMap I2cItem.slaveBits ++ byteLevels data = (List.range turns).map dev.slave.bits := by
  obtain ⟨turns, sda, hlow, hbits⟩ := h
  obtain ⟨data, hdata, hlevels, hread⟩ := hlow.i2c_readb hdev
  exact ⟨data, turns + 8, hdata, hread, by rw [range_map_add, hbits, hlevels]⟩

end I2cBus

/-! ### Plans -/

section

variable {covered done : Bool} {front front' : List I2cPlan} {items items' : List I2cItem}

/-- How the beginning of a plan goes, whatever follows it. -/
def Goes (covered : Bool) (front : List I2cPlan) (items : List I2cItem) : (done : Bool) → Prop
  | true => ∀ plan items' done, Performs covered plan items' done →
      Performs covered (front ++ plan) (items ++ items') done
  | false => ∀ plan, Performs covered (front ++ plan) items false

theorem Goes.append (h : Goes covered front items true) (h' : Goes covered front' items' done) :
    Goes covered (front ++ front') (items ++ items') done := by
  cases done with
  | true =>
    intro plan more done hplan
    rw [List.append_assoc, List.append_assoc]
    exact h _ _ _ (h' _ _ _ hplan)
  | false =>
    intro plan
    rw [List.append_assoc]
    exact h _ _ _ (h' _)

theorem Goes.ends (h : Goes covered front items false) : Goes covered (front ++ front') items false := by
  intro plan
  rw [List.append_assoc]
  exact h _

theorem Goes.performs (h : Goes covered front items done) : Performs covered front items done := by
  cases done with
  | true =>
    have hall := h _ _ _ .nil
    rwa [List.append_nil, List.append_nil] at hall
  | false =>
    have hall := h []
    rwa [List.append_nil] at hall

theorem Goes.nil : Goes covered [] [] true :=
  fun _ _ _ h => h

theorem Goes.start : Goes covered [.start] [.start] true :=
  fun _ _ _ h => .start h

theorem Goes.read {data : I2cByte} {ack : Option Bool} :
    Goes covered [.read ack] [.read data ack] true :=
  fun _ _ _ h => .read h

theorem Goes.write {data : I2cByte} {ack : Bool} :
    Goes covered [.write data] [.wrote data ack covered] (ack || covered) := by
  cases hok : ack || covered with
  | true =>
    intro plan items' done h
    exact .accepted ((Bool.or_eq_true _ _).mp hok) h
  | false =>
    intro plan
    obtain ⟨rfl, rfl⟩ := (Bool.or_eq_false_iff).mp hok
    exact .refused rfl

/-- The last try of an address byte is a plain write. -/
theorem Goes.lastTry {data : I2cByte} (h : Goes covered [.write data] items done) :
    Goes covered [.address data 0] items done := by
  cases done with
  | true => exact fun _ _ _ hplan => .lastTry (h _ _ _ hplan)
  | false => exact fun _ => .lastTry (h _)

theorem Goes.acknowledged {data : I2cByte} {retries : Nat} :
    Goes covered [.address data retries] [.wrote data true covered] true :=
  fun _ _ _ h => .acknowledged h

theorem Goes.again {data : I2cByte} {retries : Nat} (h : Goes covered [.address data retries] items done) :
    Goes covered [.address data (retries + 1)] ([.retried data, .stop, .start] ++ items) done := by
  cases done with
  | true => exact fun _ _ _ hplan => .again (h _ _ _ hplan)
  | false => exact fun _ => .again (h _)

end

namespace I2cBus

variable {dev : I2cDevice} {bus : I2cBus} {items : List I2cItem}

/-! ### Addresses -/

theorem Did.i2c_send_address (hdev : dev.Patient) (covered : Bool) (data : I2cByte) (retries : Nat) :
    ∀ {bus : I2cBus} {items : List I2cItem}, Did dev bus items →
      ∃ more ack, Did dev (bus.i2c_send_address dev data retries).1 (items ++ more) ∧
        (bus.i2c_send_address dev data retries).2 = (if ack then 1 else 0) ∧
        Goes covered [.address data retries] more (ack || covered) ∧
        more.filterMap I2cItem.received = [] := by
  induction retries with
  | zero =>
    intro bus items h
    obtain ⟨ack, hret, hdid, -⟩ := h.i2c_writeb hdev data
    exact ⟨_, ack, hdid covered, hret, Goes.write.lastTry, rfl⟩
  | succ retries ih =>
    intro bus items h
    obtain ⟨ack, hret, hdid, hretry⟩ := h.i2c_writeb hdev data
    rw [I2cBus.i2c_send_address]
    generalize bus.i2c_writeb dev data = r at hret hdid hretry
    obtain ⟨b, ret⟩ := r
    simp only at hret hdid hretry
    cases ack with
    | true =>
      simp only [hret, if_true]
      exact ⟨_, true, hdid covered, rfl, Goes.acknowledged, rfl⟩
    | false =>
      have hne : ¬ret = 1 := by simp [hret]
      simp only [if_neg hne]
      obtain ⟨more, ack, hdid', hret', hgoes, hnone⟩ := ih ((hretry rfl).stop_start hdev)
      refine ⟨[.retried data, .stop, .start] ++ more, ack, ?_, hret', hgoes.again, ?_⟩
      · simpa using hdid'
      · rw [List.filterMap_append, hnone]
        rfl

/-- The result of an address that is refused. -/
theorem refused_iff {ack covered : Bool} {ret : Int} (hret : ret = if ack then 1 else 0) :
    (ret ≠ 1 ∧ (!covered) = true) ↔ (ack || covered) = false := by
  subst hret
  cases ack <;> cases covered <;> simp

theorem Did.i2c_bit_send_address (h : Did dev bus items) (hdev : dev.Patient) (msg : I2cMsg) :
    ∃ more done, Did dev (bus.i2c_bit_send_address dev msg).1 (items ++ more) ∧
      ((bus.i2c_bit_send_address dev msg).2 = if done then RT_EOK else - RT_EIO) ∧
      (done = false → msg.ignore_nack = false) ∧
      Goes msg.ignore_nack (msg.addressPlan dev) more done ∧
      more.filterMap I2cItem.received = [] := by
  have hcovered : ∀ {ack : Bool}, (ack || msg.ignore_nack) = false → msg.ignore_nack = false :=
    fun hend => ((Bool.or_eq_false_iff).mp hend).2
  simp only [I2cBus.i2c_bit_send_address, I2cMsg.addressPlan]
  by_cases hten : msg.has RT_I2C_ADDR_10BIT = true
  · simp only [if_pos hten]
    obtain ⟨more1, ack1, hdid1, hret1, hgoes1, hnone1⟩ :=
      h.i2c_send_address hdev msg.ignore_nack msg.addr1 (msg.retries dev)
    generalize bus.i2c_send_address dev msg.addr1 (msg.retries dev) = r1 at hdid1 hret1 ⊢
    obtain ⟨b1, ret1⟩ := r1
    simp only at hdid1 hret1 ⊢
    cases hok1 : ack1 || msg.ignore_nack with
    | false =>
      rw [if_pos ((refused_iff hret1).mpr hok1)]
      rw [hok1] at hgoes1
      exact ⟨more1, false, hdid1, rfl, fun _ => hcovered hok1, hgoes1.ends.ends, hnone1⟩
    | true =>
      rw [if_neg (by rw [refused_iff hret1, hok1]; simp)]
      rw [hok1] at hgoes1
      obtain ⟨ack2, hret2, hdid2, -⟩ := hdid1.i2c_writeb hdev msg.addr2
      have hwrote := hdid2 msg.ignore_nack
      have hgoes2 : Goes msg.ignore_nack [.write msg.addr2] [.wrote msg.addr2 ack2 msg.ignore_nack]
        (ack2 || msg.ignore_nack) := Goes.write
      generalize b1.i2c_writeb dev msg.addr2 = r2 at hret2 hwrote ⊢
      obtain ⟨b2, ret2⟩ := r2
      simp only at hret2 hwrote ⊢
      rw [List.append_assoc] at hwrote
      have hboth := hgoes1.append hgoes2
      have hnone2 : (more1 ++ [I2cItem.wrote msg.addr2 ack2 msg.ignore_nack]).filterMap
          I2cItem.received = [] := by
        rw [List.filterMap_append, hnone1]
        rfl
      cases hok2 : ack2 || msg.ignore_nack with
      | false =>
        rw [if_pos ((refused_iff hret2).mpr hok2)]
        rw [hok2] at hboth
        exact ⟨_, false, hwrote, rfl, fun _ => hcovered hok2, hboth.ends, hnone2⟩
      | true =>
        rw [if_neg (by rw [refused_iff hret2, hok2]; simp)]
        rw [hok2] at hboth
        by_cases hrd : msg.rd = true
        · simp only [if_pos hrd]
          -- a read sends the first byte again
          obtain ⟨more3, ack3, hdid3, hret3, hgoes3, hnone3⟩ := (hwrote.i2c_restart hdev).i2c_send_address
            hdev msg.ignore_nack (msg.addr1 ||| 1) (msg.retries dev)
          generalize (b2.i2c_restart dev).i2c_send_address dev (msg.addr1 ||| 1) (msg.retries dev) =
            r3 at hdid3 hret3 ⊢
          obtain ⟨b3, ret3⟩ := r3
          simp only at hdid3 hret3 ⊢
          have hall := hboth.append (Goes.start.append hgoes3)
          refine ⟨_, ack3 || msg.ignore_nack, ?_, ?_, hcovered, hall, ?_⟩
          · cases hok3 : ack3 || msg.ignore_nack with
            | false =>
              rw [if_pos ((refused_iff hret3).mpr hok3)]
              simpa using hdid3
            | true =>
              rw [if_neg (by rw [refused_iff hret3, hok3]; simp)]
              simpa using hdid3
          · cases hok3 : ack3 || msg.ignore_nack with
            | false => rw [if_pos ((refused_iff hret3).mpr hok3)]; rfl
            | true => rw [if_neg (by rw [refused_iff hret3, hok3]; simp)]; rfl
          · rw [List.filterMap_append, hnone2, List.filterMap_append, hnone3]
            rfl
        · simp only [if_neg hrd, List.append_nil]
          exact ⟨_, true, hwrote, rfl, (fun hc => by cases hc), hboth, hnone2⟩
  · simp only [if_neg hten]
    obtain ⟨more, ack, hdid, hret, hgoes, hnone⟩ :=
      h.i2c_send_address hdev msg.ignore_nack msg.addr7 (msg.retries dev)
    generalize bus.i2c_send_address dev msg.addr7 (msg.retries dev) = r at hdid hret ⊢
    obtain ⟨b, ret⟩ := r
    simp only at hdid hret ⊢
    refine ⟨more, ack || msg.ignore_nack, ?_, ?_, hcovered, hgoes, hnone⟩
    · cases hok : ack || msg.ignore_nack with
      | false => rw [if_pos ((refused_iff hret).mpr hok)]; exact hdid
      | true => rw [if_neg (by rw [refused_iff hret, hok]; simp)]; exact hdid
    · cases hok : ack || msg.ignore_nack with
      | false => rw [if_pos ((refused_iff hret).mpr hok)]; rfl
      | true => rw [if_neg (by rw [refused_iff hret, hok]; simp)]; rfl

/-! ### Data -/

theorem sendBytes_did (hdev : dev.Patient) (covered : Bool) (buf : List I2cByte) :
    ∀ (bytes : Nat) {bus : I2cBus} {items : List I2cItem}, Did dev bus items →
      ∃ more done, Did dev (sendBytes dev covered buf bytes bus).1 (items ++ more) ∧
        Goes covered (buf.map .write) more done ∧
        (done = true → (sendBytes dev covered buf bytes bus).2 = ↑(bytes + buf.length)) ∧
        (done = false → (sendBytes dev covered buf bytes bus).2 = 0 ∧ buf ≠ []) := by
  induction buf with
  | nil =>
    intro bytes bus items h
    exact ⟨[], true, by simpa [sendBytes] using h, Goes.nil, fun _ => rfl, fun hc => by cases hc⟩
  | cons data buf ih =>
    intro bytes bus items h
    obtain ⟨ack, hret, hdid, -⟩ := h.i2c_writeb hdev data
    have hwrote := hdid covered
    have hgoes : Goes covered [.write data] [.wrote data ack covered] (ack || covered) := Goes.write
    rw [sendBytes]
    generalize bus.i2c_writeb dev data = r at hret hwrote
    obtain ⟨b, ret⟩ := r
    simp only at hret hwrote
    have hiff : (ret > 0 ∨ (covered = true ∧ ret = 0)) ↔ (ack || covered) = true := by
      subst hret
      cases ack <;> cases covered <;> simp
    cases hok : ack || covered with
    | true =>
      rw [hok] at hgoes
      obtain ⟨more, done, hdid', hgoes', hdone, hend⟩ := ih (bytes + 1) hwrote
      have hall : Goes covered ((data :: buf).map .write)
        ([I2cItem.wrote data ack covered] ++ more) done := hgoes.append hgoes'
      refine ⟨_, done, ?_, hall, ?_, ?_⟩
      · simp only [if_pos (hiff.mpr hok)]
        simpa using hdid'
      · intro hd
        simp only [if_pos (hiff.mpr hok)]
        rw [hdone hd, List.length_cons]
        congr 1
        omega
      · intro hd
        simp only [if_pos (hiff.mpr hok)]
        exact ⟨(hend hd).1, List.cons_ne_nil _ _⟩
    | false =>
      rw [hok] at hgoes
      have hzero : ret = 0 := by
        subst hret
        cases ack <;> simp_all
      have hnot : ¬(ret > 0 ∨ (covered = true ∧ ret = 0)) := by rw [hiff, hok]; simp
      have hall : Goes covered ((data :: buf).map .write) [I2cItem.wrote data ack covered] false :=
        hgoes.ends
      refine ⟨_, false, ?_, hall, (fun hc => by cases hc), fun _ => ?_⟩
      · simp only [if_neg hnot, if_pos hzero]
        exact hwrote
      · simp only [if_neg hnot, if_pos hzero]
        exact ⟨trivial, List.cons_ne_nil _ _⟩

theorem recvBytes_did (hdev : dev.Patient) (covered : Bool) (msg : I2cMsg) (count : Nat) :
    ∀ (bytes : List I2cByte) {bus : I2cBus} {items : List I2cItem}, Did dev bus items →
      ∃ more, Did dev (recvBytes dev (msg.has RT_I2C_NO_READ_ACK) count bytes bus).1 (items ++ more) ∧
        Goes covered (msg.readPlan count) more true ∧
        (recvBytes dev (msg.has RT_I2C_NO_READ_ACK) count bytes bus).2 =
          (↑(bytes.length + count), bytes ++ more.filterMap I2cItem.received) ∧
        (more.filterMap I2cItem.received).length = count := by
  induction count with
  | zero =>
    intro bytes bus items h
    exact ⟨[], by simpa [recvBytes] using h, Goes.nil, by simp [recvBytes], rfl⟩
  | succ count ih =>
    intro bytes bus items h
    obtain ⟨data, turns, hdata, hlow, hbits⟩ := h.i2c_readb hdev
    rw [recvBytes]
    generalize bus.i2c_readb dev = r at hdata hlow
    obtain ⟨b, val⟩ := r
    simp only at hdata hlow
    subst hdata
    dsimp only
    have hgoes : Goes covered [.read (msg.readAck count)] [.read data (msg.readAck count)] true :=
      Goes.read
    -- what the rest of the loop does once the acknowledge is over
    have hrest : ∀ {b' : I2cBus}, Did dev b' (items ++ [.read data (msg.readAck count)]) →
        ∃ more, Did dev (recvBytes dev (msg.has RT_I2C_NO_READ_ACK) count (bytes ++ [data]) b').1
            (items ++ more) ∧
          Goes covered (msg.readPlan (count + 1)) more true ∧
          (recvBytes dev (msg.has RT_I2C_NO_READ_ACK) count (bytes ++ [data]) b').2 =
            (↑(bytes.length + (count + 1)), bytes ++ more.filterMap I2cItem.received) ∧
          (more.filterMap I2cItem.received).length = count + 1 := by
      intro b' hdid
      obtain ⟨more, hdid', hgoes', hres, hlen⟩ := ih (bytes ++ [data]) hdid
      refine ⟨[I2cItem.read data (msg.readAck count)] ++ more, ?_, hgoes.append hgoes', ?_, ?_⟩
      · rwa [List.append_assoc] at hdid'
      · rw [hres]
        have hfirst : [I2cItem.read data (msg.readAck count)].filterMap I2cItem.received = [data] := rfl
        rw [List.filterMap_append, hfirst, List.length_append, List.length_singleton,
          List.append_assoc, show bytes.length + 1 + count = bytes.length + (count + 1) by omega]
      · rw [List.filterMap_append, List.length_append, hlen]
        simp [I2cItem.received, Nat.add_comm]
    by_cases hno : msg.has RT_I2C_NO_READ_ACK = true
    · rw [if_pos hno]
      refine hrest ⟨turns, true, ?_, ?_⟩
      · simpa [I2cItem.events, I2cMsg.readAck, hno] using hlow
      · simpa [I2cItem.slaveBits] using hbits
    · rw [if_neg hno]
      obtain ⟨hret, sda, hack⟩ := hlow.i2c_send_ack_or_nack hdev (decide (count ≠ 0))
      generalize b.i2c_send_ack_or_nack dev (decide (count ≠ 0)) = r at hret hack
      obtain ⟨b', ret⟩ := r
      simp only at hret hack
      simp only [hret, RT_EOK, lt_irrefl, if_false]
      refine hrest ⟨turns, sda, ?_, ?_⟩
      · simpa [I2cItem.events, I2cMsg.readAck, hno] using hack
      · simpa [I2cItem.slaveBits] using hbits

/-! ### Messages -/

/-- The data of a message. -/
theorem Did.transfer (h : Did dev bus items) (hdev : dev.Patient) (msg : I2cMsg) :
    ∃ more done, Did dev (bus.transfer dev msg).1 (items ++ more) ∧
      Goes msg.ignore_nack msg.dataPlan more done ∧
      (done = true → 0 ≤ (bus.transfer dev msg).2.1) ∧
      (done = false → (bus.transfer dev msg).2.1 < 0 ∧ (bus.transfer dev msg).2.2 = msg) ∧
      (done = true → ∀ before, before.filterMap I2cItem.received = [] →
        msg.Received (before ++ more) (bus.transfer dev msg).2.2) := by
  unfold I2cBus.transfer I2cMsg.dataPlan
  by_cases hrd : msg.rd = true
  · simp only [if_pos hrd]
    obtain ⟨more, hdid, hgoes, hres, hlen⟩ := recvBytes_did hdev msg.ignore_nack msg msg.buf.length [] h
    rw [i2c_recv_bytes]
    generalize recvBytes dev (msg.has RT_I2C_NO_READ_ACK) msg.buf.length [] bus = r at hdid hres
    obtain ⟨b, res⟩ := r
    simp only at hdid hres
    subst hres
    dsimp only
    simp only [List.length_nil, Nat.zero_add, List.nil_append, lt_irrefl, false_and, if_false]
    refine ⟨more, true, hdid, hgoes, fun _ => Int.natCast_nonneg _, (fun hc => by cases hc),
      fun _ before hbefore => ⟨rfl, rfl, ?_⟩⟩
    rw [if_pos hrd, List.filterMap_append, hbefore, List.nil_append]
    show (more.filterMap I2cItem.received ++ msg.buf.drop _).take msg.buf.length = _
    rw [hlen, List.drop_length, List.append_nil, ← hlen, List.take_length]
  · simp only [if_neg hrd]
    obtain ⟨more, done, hdid, hgoes, hdone, hend⟩ := sendBytes_did hdev msg.ignore_nack msg.buf 0 h
    rw [i2c_send_bytes]
    generalize sendBytes dev msg.ignore_nack msg.buf 0 bus = r at hdid hdone hend
    obtain ⟨b, ret⟩ := r
    simp only at hdid hdone hend
    refine ⟨more, done, hdid, hgoes, fun hd => ?_, fun hd => ⟨?_, trivial⟩, fun _ before _ =>
      ⟨rfl, rfl, by rw [if_neg hrd]⟩⟩
    · dsimp only
      rw [hdone hd, Nat.zero_add, if_neg (fun hc => absurd hc.1 (lt_irrefl _))]
      exact Int.natCast_nonneg _
    · obtain ⟨hzero, hne⟩ := hend hd
      have hpos := List.length_pos_iff.mpr hne
      dsimp only
      rw [hzero, if_pos ⟨by omega, le_refl _⟩]
      decide

/-- The bus is ready for the message at index `i`. -/
def Ready (dev : I2cDevice) (i : Nat) (msgs : List I2cMsg) (bus : I2cBus) (items : List I2cItem) : Prop :=
  if i = 0 then bus = idle ∧ items = [] ∧ ∀ msg ∈ msgs.head?, msg.has RT_I2C_NO_START = false
  else Did dev bus items

theorem Free.idle : Free idle [] 0 :=
  ⟨rfl, rfl, rfl, rfl, false, rfl⟩

theorem Ready.address {i : Nat} {msg : I2cMsg} {msgs : List I2cMsg} (hdev : dev.Patient)
    (h : Ready dev i (msg :: msgs) bus items) :
    ∃ more done, Did dev (bus.address dev i msg).1 (items ++ more) ∧
      ((bus.address dev i msg).2 = if done then RT_EOK else - RT_EIO) ∧
      (done = false → msg.ignore_nack = false) ∧
      Goes msg.ignore_nack (if msg.has RT_I2C_NO_START then [] else .start :: msg.addressPlan dev)
        more done ∧ more.filterMap I2cItem.received = [] := by
  rw [I2cBus.address]
  by_cases hno : msg.has RT_I2C_NO_START = true
  · have hne : i ≠ 0 := by
      rintro rfl
      rw [Ready, if_pos rfl] at h
      rw [h.2.2 msg rfl] at hno
      cases hno
    rw [Ready, if_neg hne] at h
    simp only [if_pos hno]
    exact ⟨[], true, by rwa [List.append_nil], rfl, (fun hc => by cases hc), Goes.nil, rfl⟩
  · simp only [if_neg hno]
    have hstart : Did dev (if i ≠ 0 then bus.i2c_restart dev else bus.i2c_start) (items ++ [.start]) := by
      by_cases hi : i = 0
      · subst hi
        rw [Ready, if_pos rfl] at h
        obtain ⟨rfl, rfl, -⟩ := h
        exact ⟨0, false, Free.idle.i2c_start, rfl⟩
      · rw [Ready, if_neg hi] at h
        rw [if_pos hi]
        exact h.i2c_restart hdev
    obtain ⟨more, done, hdid, hret, hcovered, hgoes, hnone⟩ := hstart.i2c_bit_send_address hdev msg
    have hall : Goes msg.ignore_nack (.start :: msg.addressPlan dev) ([I2cItem.start] ++ more) done :=
      Goes.start.append hgoes
    refine ⟨_, done, by rwa [List.append_assoc] at hdid, hret, hcovered, hall, ?_⟩
    rw [List.filterMap_append, hnone]
    rfl

theorem stopItems_congr {msg msg' : I2cMsg} (h : msg'.flags = msg.flags) :
    msg'.stopItems = msg.stopItems := by
  unfold I2cMsg.stopItems I2cMsg.has
  rw [h]

/-- A transfer depends on the message before it by the stop condition only. -/
theorem transfers_last {last last' : I2cMsg} {msgs msgs' : List I2cMsg} {done : Bool}
    (h : Transfers dev last msgs msgs' items done) (hstop : last'.stopItems = last.stopItems) :
    Transfers dev last' msgs msgs' items done := by
  cases h with
  | done => rw [← hstop]; exact .done
  | refused hp => exact .refused hp
  | next hp hr ht => exact .next hp hr ht

theorem xferLoop_did (hdev : dev.Patient) (msgs : List I2cMsg) :
    ∀ (i : Nat) (last : I2cMsg) {bus : I2cBus} {items : List I2cItem}, Ready dev i msgs bus items →
      i ≠ 0 ∨ msgs ≠ [] →
      ∃ more done, Did dev (xferLoop dev msgs i last bus).1 (items ++ more) ∧
        Transfers dev last msgs (xferLoop dev msgs i last bus).2.2.2
          (more ++ (xferLoop dev msgs i last bus).2.2.1.stopItems) done ∧
        (xferLoop dev msgs i last bus).2.1 = (if done then ↑(i + msgs.length) else
          (xferLoop dev msgs i last bus).2.1) ∧
        (done = false → (xferLoop dev msgs i last bus).2.1 < 0) := by
  induction msgs with
  | nil =>
    intro i last bus items h hne
    rw [Ready, if_neg (hne.resolve_right fun hc => hc rfl)] at h
    exact ⟨[], true, by simpa [xferLoop] using h, .done, rfl, fun hc => by cases hc⟩
  | cons msg msgs ih =>
    intro i last bus items h _
    obtain ⟨more1, done1, hdid1, hret1, hcovered, hgoes1, hnone⟩ := h.address hdev
    rw [xferLoop]
    generalize bus.address dev i msg = r1 at hdid1 hret1
    obtain ⟨b1, ret1⟩ := r1
    simp only at hdid1 hret1
    cases done1 with
    | false =>
      have hrefused : ret1 ≠ RT_EOK ∧ (!msg.ignore_nack) = true := by
        rw [hcovered rfl, hret1]
        decide
      simp only [if_pos hrefused]
      refine ⟨more1, false, hdid1, .refused hgoes1.ends.performs, by simp, fun _ => ?_⟩
      rw [hret1]
      decide
    | true =>
      have hgoes : ¬(ret1 ≠ RT_EOK ∧ (!msg.ignore_nack) = true) := fun hc => hc.1 hret1
      simp only [if_neg hgoes]
      obtain ⟨more2, done2, hdid2, hgoes2, hpos, hneg, hreceived⟩ := hdid1.transfer hdev msg
      have hall := hgoes1.append hgoes2
      generalize b1.transfer dev msg = r2 at hdid2 hpos hneg hreceived
      obtain ⟨b2, ret2, msg2⟩ := r2
      simp only at hdid2 hpos hneg hreceived
      rw [List.append_assoc] at hdid2
      cases done2 with
      | false =>
        obtain ⟨hlt, rfl⟩ := hneg rfl
        simp only [if_pos hlt]
        exact ⟨_, false, hdid2, .refused hall.performs, by simp, fun _ => hlt⟩
      | true =>
        simp only [if_neg (Int.not_lt.mpr (hpos rfl))]
        have hreceived := hreceived rfl more1 hnone
        have hready : Ready dev (i + 1) msgs b2 (items ++ (more1 ++ more2)) := by
          rw [Ready, if_neg (Nat.succ_ne_zero i)]
          exact hdid2
        obtain ⟨more, done, hdid, htransfers, hret, hend⟩ :=
          ih (i + 1) msg2 hready (Or.inl (Nat.succ_ne_zero i))
        generalize xferLoop dev msgs (i + 1) msg2 b2 = r at hdid htransfers hret hend
        obtain ⟨b, ret, last', rest⟩ := r
        simp only at hdid htransfers hret hend
        refine ⟨more1 ++ more2 ++ more, done, by rwa [List.append_assoc] at hdid, ?_, ?_, hend⟩
        · rw [List.append_assoc]
          exact .next hall.performs hreceived
            (transfers_last htransfers (stopItems_congr hreceived.flags).symm)
        · rw [hret, List.length_cons, show i + 1 + msgs.length = i + (msgs.length + 1) by omega]
          cases done <;> rfl

end I2cBus

/-- A plan is done unless a byte is refused that is not covered. -/
theorem Performs.accepted_iff {covered done : Bool} {plan : List I2cPlan} {items : List I2cItem}
    (h : Performs covered plan items done) : done = true ↔ ∀ item ∈ items, item.Accepted := by
  induction h with
  | nil => simp
  | start _ ih => simpa [I2cItem.Accepted] using ih
  | accepted hok _ ih => simpa [I2cItem.Accepted, hok] using ih
  | refused hcovered => simp [I2cItem.Accepted, hcovered]
  | read _ ih => simpa [I2cItem.Accepted] using ih
  | acknowledged _ ih => simpa [I2cItem.Accepted] using ih
  | again _ ih => simpa [I2cItem.Accepted] using ih
  | lastTry _ ih => exact ih

theorem stopItems_accepted (msg : I2cMsg) : ∀ item ∈ msg.stopItems, item.Accepted := by
  intro item hitem
  rw [I2cMsg.stopItems] at hitem
  split at hitem
  · cases hitem
  · rw [List.mem_singleton.mp hitem]
    exact trivial

theorem Transfers.accepted_iff {dev : I2cDevice} {last : I2cMsg} {msgs msgs' : List I2cMsg}
    {items : List I2cItem} {done : Bool} (h : Transfers dev last msgs msgs' items done) :
    done = true ↔ ∀ item ∈ items, item.Accepted := by
  induction h with
  | done => exact iff_of_true rfl (stopItems_accepted _)
  | refused hp =>
    refine iff_of_false (by simp) fun hall => ?_
    have hdone := hp.accepted_iff.mpr fun item hitem => hall item (List.mem_append_left _ hitem)
    cases hdone
  | next hp _ _ ih =>
    rw [ih, List.forall_mem_append]
    exact (and_iff_right (hp.accepted_iff.mp rfl)).symm

theorem i2c_bit_xfer_transfers (dev : I2cDevice) (hdev : dev.Patient) (msgs : List I2cMsg)
    (hfirst : ∀ msg ∈ msgs.head?, msg.has RT_I2C_NO_START = false) :
    ∃ items done, I2cContract dev msgs (I2cBus.i2c_bit_xfer dev msgs I2cBus.idle) items done := by
  cases msgs with
  | nil =>
    refine ⟨[], true, (fun msg rest h => by cases h), fun _ => rfl, rfl, rfl, ?_⟩
    simp [I2cBus.i2c_bit_xfer]
  | cons msg msgs =>
    have hready : I2cBus.Ready dev 0 (msg :: msgs) I2cBus.idle [] := ⟨rfl, rfl, hfirst⟩
    obtain ⟨items, done, hdid, htransfers, hret, hend⟩ :=
      I2cBus.xferLoop_did hdev (msg :: msgs) 0 msg hready (Or.inr (List.cons_ne_nil _ _))
    rw [I2cBus.i2c_bit_xfer]
    generalize I2cBus.xferLoop dev (msg :: msgs) 0 msg I2cBus.idle = r at hdid htransfers hret hend
    obtain ⟨b, ret, last, msgs'⟩ := r
    simp only [List.nil_append] at hdid htransfers hret hend
    obtain ⟨turns, sda, hlow, hbits⟩ := hdid
    have hiff : ret = ((msg :: msgs).length : Int) ↔ done = true := by
      cases done with
      | true => exact iff_of_true (by rw [hret]; simp) rfl
      | false =>
        have := hend rfl
        exact iff_of_false (by omega) (by simp)
    refine ⟨items ++ last.stopItems, done, fun m rest hm => ?_, (fun hc => by cases hc), ?_, ?_,
      hiff.trans htransfers.accepted_iff⟩
    · obtain ⟨rfl, -⟩ := List.cons.inj hm
      exact htransfers
    · by_cases hstop : last.has RT_I2C_NO_STOP = true
      · simp only [if_pos hstop, I2cMsg.stopItems, List.append_nil]
        exact congrArg WireDecoder.events hlow.decoder
      · simp only [if_neg hstop, I2cMsg.stopItems]
        obtain ⟨moved, hdecoder⟩ := (hlow.i2c_stop hdev).decoder
        rw [List.flatMap_append]
        exact congrArg WireDecoder.events hdecoder
    · by_cases hstop : last.has RT_I2C_NO_STOP = true
      · simp only [if_pos hstop, I2cMsg.stopItems, List.append_nil]
        rw [hbits, hlow.turns]
      · simp only [if_neg hstop, I2cMsg.stopItems]
        rw [(hlow.i2c_stop hdev).turns, List.flatMap_append, hbits]
        simp [I2cItem.slaveBits]

/-- A slave that acknowledges every byte and sends zeros. -/
def zeroSlave : I2cDevice := ⟨100, 0, by decide, ⟨fun _ => false, fun _ => [0, 50]⟩⟩

theorem zeroSlave_patient : zeroSlave.Patient := by
  intro n t ht
  have hmem : t ∈ [0, 50] := ht
  show t < 100
  simp only [List.mem_cons, List.not_mem_nil, or_false] at hmem
  omega

example : (I2cBus.i2c_bit_xfer zeroSlave [] I2cBus.idle).2.1 = 0 := by decide +kernel

/-- A write of one byte and a read of two. -/
def writeThenRead : List I2cMsg :=
  [⟨0x50, 0, [0x12], by decide⟩, ⟨0x50, RT_I2C_RD, [0xff, 0xff], by decide⟩]

theorem i2c_bit_xfer_writeThenRead :
    (∃ items done, I2cContract zeroSlave writeThenRead
      (I2cBus.i2c_bit_xfer zeroSlave writeThenRead I2cBus.idle) items done) ∧
    (I2cBus.i2c_bit_xfer zeroSlave writeThenRead I2cBus.idle).2.1 = 2 :=
  ⟨i2c_bit_xfer_transfers zeroSlave zeroSlave_patient writeThenRead (by decide), by decide +kernel⟩

/-- A read of one byte without an acknowledge. -/
def readBare : List I2cMsg := [⟨0x50, RT_I2C_RD ||| RT_I2C_NO_READ_ACK, [0xff], by decide⟩]

/-- The byte read has no acknowledge bit after it. -/
theorem read_without_acknowledge :
    (I2cBus.i2c_bit_xfer zeroSlave readBare I2cBus.idle).1.events =
      [.start] ++ (byteLevels 0xa1 ++ [false] ++ byteLevels 0).map .bit ++ [.stop] ∧
    ∀ ack, (I2cBus.i2c_bit_xfer zeroSlave readBare I2cBus.idle).1.events ≠
      [.start] ++ (byteLevels 0xa1 ++ [false] ++ byteLevels 0 ++ [ack]).map .bit ++ [.stop] := by
  decide +kernel

end Ab32Vg1.Drivers
