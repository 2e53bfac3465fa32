import Ab32Vg1.Kernel.Def
import Ab32Vg1.ProofKit.TwoWire

/-! The bit-banged I2C master of `i2c-bit-ops.c` over open-drain lines.  The delays, which do not
change the lines, are left out. -/

namespace Ab32Vg1.Drivers

open Kernel ProofKit

def RT_EIO : Int := 8

abbrev I2cByte := BitVec 8

/-! ### Flags -/

def RT_I2C_RD : BitVec 16 := 1#16 <<< 0

def RT_I2C_ADDR_10BIT : BitVec 16 := 1#16 <<< 2

def RT_I2C_NO_START : BitVec 16 := 1#16 <<< 4

def RT_I2C_IGNORE_NACK : BitVec 16 := 1#16 <<< 5

def RT_I2C_NO_READ_ACK : BitVec 16 := 1#16 <<< 6

def RT_I2C_NO_STOP : BitVec 16 := 1#16 <<< 7

/-- `struct rt_i2c_msg`; `buf` holds the `len` bytes. -/
structure I2cMsg where
  addr : BitVec 16
  flags : BitVec 16
  buf : List I2cByte
  len_lt : buf.length < 65536

namespace I2cMsg

def has (msg : I2cMsg) (flag : BitVec 16) : Bool := msg.flags &&& flag ≠ 0

def rd (msg : I2cMsg) : Bool := msg.has RT_I2C_RD

def ignore_nack (msg : I2cMsg) : Bool := msg.has RT_I2C_IGNORE_NACK

/-- The buffer after `bytes` were stored at its beginning. -/
def store (msg : I2cMsg) (bytes : List I2cByte) : I2cMsg :=
  { msg with
    buf := (bytes ++ msg.buf.drop bytes.length).take msg.buf.length
    len_lt := Nat.lt_of_le_of_lt (List.length_take_le _ _) msg.len_lt }

end I2cMsg

/-! ### The lines -/

/-- The slaves: `bits` is what they put on SDA in the clock periods that are theirs, the acknowledge
bits of the bytes written and the data bits of the bytes read.  After each release of SCL, `low`
tells the ticks that had passed when the master found SCL still low. -/
structure I2cSlave where
  bits : Nat → Bool
  low : Nat → List Nat

/-- The bus device: `timeout` of its `struct rt_i2c_bit_ops`, and `retries`. -/
structure I2cDevice where
  timeout : Nat
  retries : Nat
  retries_lt : retries < 2 ^ 31
  slave : I2cSlave

/-- The lines: `sda` and `scl` tell whether the master has released them, `slave_sda` whether the
slaves have released SDA, and `held` whether they hold SCL.  `turns` and `pulses` count the bits of
the slaves and the releases of SCL; `wave` is the waveform so far. -/
structure I2cBus where
  sda : Bool
  scl : Bool
  slave_sda : Bool
  held : Bool
  turns : Nat
  pulses : Nat
  wave : List (Bool × Bool)

namespace I2cBus

def record (bus : I2cBus) : I2cBus :=
  { bus with wave := bus.wave ++ [(bus.sda && bus.slave_sda, bus.scl && !bus.held)] }

def GET_SDA (bus : I2cBus) : Bool := bus.sda && bus.slave_sda

def SET_SDA (bus : I2cBus) (val : Bool) : I2cBus := { bus with sda := val }.record

/-- The slaves release SDA once SCL has fallen. -/
def SCL_L (bus : I2cBus) : I2cBus := { { bus with scl := false }.record with slave_sda := true }.record

/-- The slaves put their next bit on SDA while SCL is low. -/
def slaveTurn (dev : I2cDevice) (bus : I2cBus) : I2cBus :=
  { bus with slave_sda := dev.slave.bits bus.turns, turns := bus.turns + 1 }.record

/-- `SCL_H`; `turn` tells whether the clock period is the slaves'. -/
def SCL_H (dev : I2cDevice) (turn : Bool) (bus : I2cBus) : I2cBus × Int :=
  let bus := if turn then bus.slaveTurn dev else bus
  if (dev.slave.low bus.pulses).any (dev.timeout < ·) then
    ({ bus with scl := true, held := true, pulses := bus.pulses + 1 }, -RT_ETIMEOUT)
  else
    ({ bus with scl := true, held := false, pulses := bus.pulses + 1 }.record, RT_EOK)

def i2c_start (bus : I2cBus) : I2cBus := (bus.SET_SDA false).SCL_L

def i2c_restart (dev : I2cDevice) (bus : I2cBus) : I2cBus :=
  let bus := (bus.SET_SDA true).SCL_H dev false
  (bus.1.SET_SDA false).SCL_L

def i2c_stop (dev : I2cDevice) (bus : I2cBus) : I2cBus :=
  let bus := (bus.SET_SDA false).SCL_H dev false
  bus.1.SET_SDA true

/-! ### Bytes -/

def i2c_waitack (dev : I2cDevice) (bus : I2cBus) : I2cBus × Int :=
  let (bus, ret) := (bus.SET_SDA true).SCL_H dev true
  if ret < 0 then (bus, -RT_ETIMEOUT)
  else (bus.SCL_L, if bus.GET_SDA then 0 else 1)

/-- The loop of `i2c_writeb` from bit `i - 1` down to bit 0. -/
def writeLoop (dev : I2cDevice) (data : I2cByte) : (i : Nat) → I2cBus → I2cBus × Int
  | 0, bus => (bus, RT_EOK)
  | i + 1, bus =>
    let (bus, ret) := (bus.SCL_L.SET_SDA (data.getLsbD i)).SCL_H dev false
    if ret < 0 then (bus, -RT_ETIMEOUT) else writeLoop dev data i bus

def i2c_writeb (dev : I2cDevice) (data : I2cByte) (bus : I2cBus) : I2cBus × Int :=
  let (bus, ret) := writeLoop dev data 8 bus
  if ret < 0 then (bus, ret) else bus.SCL_L.i2c_waitack dev

/-- The loop of `i2c_readb` for the last `n` bits; `none` stands for a timeout. -/
def readLoop (dev : I2cDevice) : (n : Nat) → (data : I2cByte) → I2cBus → I2cBus × Option I2cByte
  | 0, data, bus => (bus, some data)
  | n + 1, data, bus =>
    let (bus, ret) := bus.SCL_H dev true
    if ret < 0 then (bus, none)
    else readLoop dev n (data <<< 1 ||| if bus.GET_SDA then 1 else 0) bus.SCL_L

def i2c_readb (dev : I2cDevice) (bus : I2cBus) : I2cBus × Option I2cByte :=
  readLoop dev 8 0 (bus.SET_SDA true)

def i2c_send_ack_or_nack (dev : I2cDevice) (ack : Bool) (bus : I2cBus) : I2cBus × Int :=
  let bus := if ack then bus.SET_SDA false else bus
  let (bus, ret) := bus.SCL_H dev false
  if ret < 0 then (bus, -RT_ETIMEOUT) else (bus.SCL_L, RT_EOK)

/-! ### Messages -/

/-- The loop of `i2c_send_bytes` after `bytes` bytes. -/
def sendBytes (dev : I2cDevice) (ignore_nack : Bool) : (buf : List I2cByte) → (bytes : Nat) →
    I2cBus → I2cBus × Int
  | [], bytes, bus => (bus, bytes)
  | data :: buf, bytes, bus =>
    let (bus, ret) := bus.i2c_writeb dev data
    if ret > 0 ∨ (ignore_nack ∧ ret = 0) then sendBytes dev ignore_nack buf (bytes + 1) bus
    else if ret = 0 then (bus, 0)
    else (bus, ret)

def i2c_send_bytes (dev : I2cDevice) (msg : I2cMsg) (bus : I2cBus) : I2cBus × Int :=
  sendBytes dev msg.ignore_nack msg.buf 0 bus

/-- The loop of `i2c_recv_bytes` for the last `count` bytes, after `bytes`; it returns the result and
the bytes stored. -/
def recvBytes (dev : I2cDevice) (no_read_ack : Bool) : (count : Nat) → (bytes : List I2cByte) →
    I2cBus → I2cBus × Int × List I2cByte
  | 0, bytes, bus => (bus, bytes.length, bytes)
  | count + 1, bytes, bus =>
    match bus.i2c_readb dev with
    | (bus, none) => (bus, bytes.length, bytes)
    | (bus, some val) =>
      if no_read_ack then recvBytes dev no_read_ack count (bytes ++ [val]) bus
      else
        let (bus, ret) := bus.i2c_send_ack_or_nack dev (count ≠ 0)
        if ret < 0 then (bus, ret, bytes ++ [val])
        else recvBytes dev no_read_ack count (bytes ++ [val]) bus

def i2c_recv_bytes (dev : I2cDevice) (msg : I2cMsg) (bus : I2cBus) :
    I2cBus × Int × List I2cByte :=
  recvBytes dev (msg.has RT_I2C_NO_READ_ACK) msg.buf.length [] bus

/-- The loop of `i2c_send_address` with `retries` tries after this one. -/
def i2c_send_address (dev : I2cDevice) (addr : I2cByte) : (retries : Nat) → I2cBus → I2cBus × Int
  | 0, bus => bus.i2c_writeb dev addr
  | retries + 1, bus =>
    let (bus, ret) := bus.i2c_writeb dev addr
    if ret = 1 then (bus, ret)
    else i2c_send_address dev addr retries (bus.i2c_stop dev).i2c_start

end I2cBus

namespace I2cMsg

/-- The address bytes of a message: of seven bits, and the two of ten bits. -/
def addr7 (msg : I2cMsg) : I2cByte :=
  let addr1 := (msg.addr <<< 1).setWidth 8
  if msg.rd then addr1 ||| 1 else addr1

def addr1 (msg : I2cMsg) : I2cByte := 0xf0 ||| ((msg.addr >>> 7) &&& 0x06).setWidth 8

def addr2 (msg : I2cMsg) : I2cByte := (msg.addr &&& 0xff).setWidth 8

def retries (dev : I2cDevice) (msg : I2cMsg) : Nat := if msg.ignore_nack then 0 else dev.retries

end I2cMsg

namespace I2cBus

def i2c_bit_send_address (dev : I2cDevice) (msg : I2cMsg) (bus : I2cBus) : I2cBus × Int :=
  let retries := msg.retries dev
  if msg.has RT_I2C_ADDR_10BIT then
    let (bus, ret) := bus.i2c_send_address dev msg.addr1 retries
    if ret ≠ 1 ∧ !msg.ignore_nack then (bus, - RT_EIO)
    else
      let (bus, ret) := bus.i2c_writeb dev msg.addr2
      if ret ≠ 1 ∧ !msg.ignore_nack then (bus, - RT_EIO)
      else if msg.rd then
        let (bus, ret) := (bus.i2c_restart dev).i2c_send_address dev (msg.addr1 ||| 1) retries
        if ret ≠ 1 ∧ !msg.ignore_nack then (bus, - RT_EIO) else (bus, RT_EOK)
      else (bus, RT_EOK)
  else
    let (bus, ret) := bus.i2c_send_address dev msg.addr7 retries
    if ret ≠ 1 ∧ !msg.ignore_nack then (bus, - RT_EIO) else (bus, RT_EOK)

/-- The start condition and the address of the message at index `i`. -/
def address (dev : I2cDevice) (i : Nat) (msg : I2cMsg) (bus : I2cBus) : I2cBus × Int :=
  if msg.has RT_I2C_NO_START then (bus, RT_EOK)
  else (if i ≠ 0 then bus.i2c_restart dev else bus.i2c_start).i2c_bit_send_address dev msg

/-- The bytes of a message: the result, negative when they are not complete, and the message with
its buffer. -/
def transfer (dev : I2cDevice) (msg : I2cMsg) (bus : I2cBus) : I2cBus × Int × I2cMsg :=
  if msg.rd then
    let (bus, ret, bytes) := bus.i2c_recv_bytes dev msg
    (bus, if ret < msg.buf.length ∧ ret ≥ 0 then - RT_EIO else ret, msg.store bytes)
  else
    let (bus, ret) := bus.i2c_send_bytes dev msg
    (bus, if ret < msg.buf.length ∧ ret ≥ 0 then -RT_ERROR else ret, msg)

/-- The loop of `i2c_bit_xfer` from index `i` on; it returns the result, the last message that it
came to and the messages with their buffers. -/
def xferLoop (dev : I2cDevice) : (msgs : List I2cMsg) → (i : Nat) → (msg : I2cMsg) → I2cBus →
    I2cBus × Int × I2cMsg × List I2cMsg
  | [], i, msg, bus => (bus, i, msg, [])
  | msg :: msgs, i, _, bus =>
    let (bus, ret) := bus.address dev i msg
    if ret ≠ RT_EOK ∧ !msg.ignore_nack then (bus, ret, msg, msg :: msgs)
    else
      let (bus, ret, msg) := bus.transfer dev msg
      if ret < 0 then (bus, ret, msg, msg :: msgs)
      else
        let (bus, ret, last, rest) := xferLoop dev msgs (i + 1) msg bus
        (bus, ret, last, msg :: rest)

def i2c_bit_xfer (dev : I2cDevice) (msgs : List I2cMsg) (bus : I2cBus) :
    I2cBus × Int × List I2cMsg :=
  match msgs with
  | [] => (bus, 0, [])
  | msg :: _ =>
    let (bus, ret, msg, msgs) := xferLoop dev msgs 0 msg bus
    (if msg.has RT_I2C_NO_STOP then bus else bus.i2c_stop dev, ret, msgs)

/-- Both lines are high and nothing has happened yet. -/
def idle : I2cBus := ⟨true, true, true, false, 0, 0, []⟩

/-- The waveform as a reader of the bus understands it. -/
def events (bus : I2cBus) : List WireEvent := (WireDecoder.idle.run bus.wave).events

end I2cBus

/-! ### The protocol -/

/-- What a transfer consists of.  A byte written is `covered` when its message ignores a NACK;
`retried` is an address byte that is refused and sent again, and the acknowledge of a byte read is
missing when the message has none. -/
inductive I2cItem where
  | start
  | stop
  | wrote (data : I2cByte) (ack covered : Bool)
  | retried (data : I2cByte)
  | read (data : I2cByte) (ack : Option Bool)
  deriving DecidableEq, Repr

/-- The bits of a byte, the most significant first. -/
def byteLevels (data : I2cByte) : List Bool :=
  [data.getLsbD 7, data.getLsbD 6, data.getLsbD 5, data.getLsbD 4, data.getLsbD 3, data.getLsbD 2,
    data.getLsbD 1, data.getLsbD 0]

namespace I2cItem

/-- How an item looks on the bus. -/
def events : I2cItem → List WireEvent
  | start => [.start]
  | stop => [.stop]
  | wrote data ack _ => (byteLevels data ++ [!ack]).map .bit
  | retried data => (byteLevels data ++ [true]).map .bit
  | read data none => (byteLevels data).map .bit
  | read data (some ack) => (byteLevels data ++ [!ack]).map .bit

/-- The bits that come from the slaves. -/
def slaveBits : I2cItem → List Bool
  | start | stop => []
  | wrote _ ack _ => [!ack]
  | retried _ => [true]
  | read data _ => byteLevels data

/-- The byte is acknowledged, or it need not be. -/
def Accepted : I2cItem → Prop
  | wrote _ ack covered => ack = true ∨ covered = true
  | _ => True

def received : I2cItem → Option I2cByte
  | read data _ => some data
  | _ => none

end I2cItem

/-- What the master means to do; an address byte may be tried again `retries` times. -/
inductive I2cPlan where
  | start
  | address (data : I2cByte) (retries : Nat)
  | write (data : I2cByte)
  | read (ack : Option Bool)

/-- How a plan goes; it ends with the first byte refused that is not covered. -/
inductive Performs (covered : Bool) : List I2cPlan → List I2cItem → (done : Bool) → Prop
  | nil : Performs covered [] [] true
  | start {plan items done} : Performs covered plan items done →
      Performs covered (.start :: plan) (.start :: items) done
  | accepted {data ack plan items done} : ack = true ∨ covered = true →
      Performs covered plan items done →
      Performs covered (.write data :: plan) (.wrote data ack covered :: items) done
  | refused {data plan} : covered = false →
      Performs covered (.write data :: plan) [.wrote data false covered] false
  | read {data ack plan items done} : Performs covered plan items done →
      Performs covered (.read ack :: plan) (.read data ack :: items) done
  | acknowledged {data retries plan items done} : Performs covered plan items done →
      Performs covered (.address data retries :: plan) (.wrote data true covered :: items) done
  | again {data retries plan items done} :
      Performs covered (.address data retries :: plan) items done →
      Performs covered (.address data (retries + 1) :: plan)
        (.retried data :: .stop :: .start :: items) done
  | lastTry {data plan items done} : Performs covered (.write data :: plan) items done →
      Performs covered (.address data 0 :: plan) items done

namespace I2cMsg

/-- The address byte, or the two bytes of a ten-bit address with a third one before a read. -/
def addressPlan (dev : I2cDevice) (msg : I2cMsg) : List I2cPlan :=
  if msg.has RT_I2C_ADDR_10BIT then
    [.address msg.addr1 (msg.retries dev), .write msg.addr2] ++
      if msg.rd then [.start, .address (msg.addr1 ||| 1) (msg.retries dev)] else []
  else [.address msg.addr7 (msg.retries dev)]

/-- The acknowledge of a byte read that `count` bytes follow: a NACK for the last one. -/
def readAck (msg : I2cMsg) (count : Nat) : Option Bool :=
  if msg.has RT_I2C_NO_READ_ACK then none else some (count ≠ 0)

/-- `count` bytes are read. -/
def readPlan (msg : I2cMsg) : (count : Nat) → List I2cPlan
  | 0 => []
  | count + 1 => .read (msg.readAck count) :: readPlan msg count

def dataPlan (msg : I2cMsg) : List I2cPlan :=
  if msg.rd then msg.readPlan msg.buf.length else msg.buf.map .write

def plan (dev : I2cDevice) (msg : I2cMsg) : List I2cPlan :=
  (if msg.has RT_I2C_NO_START then [] else .start :: msg.addressPlan dev) ++ msg.dataPlan

/-- The stop condition after the last message. -/
def stopItems (msg : I2cMsg) : List I2cItem := if msg.has RT_I2C_NO_STOP then [] else [.stop]

/-- The buffer of `msg'` holds what was read. -/
structure Received (msg : I2cMsg) (items : List I2cItem) (msg' : I2cMsg) : Prop where
  addr : msg'.addr = msg.addr
  flags : msg'.flags = msg.flags
  buf : msg'.buf = if msg.rd then items.filterMap I2cItem.received else msg.buf

end I2cMsg

/-- How a list of messages goes after the message `last`; it ends with the first message that is not
done.  The second list is the messages with their buffers. -/
inductive Transfers (dev : I2cDevice) : (last : I2cMsg) → (msgs msgs' : List I2cMsg) →
    List I2cItem → (done : Bool) → Prop
  | done {last} : Transfers dev last [] [] last.stopItems true
  | refused {last msg msgs items} : Performs msg.ignore_nack (msg.plan dev) items false →
      Transfers dev last (msg :: msgs) (msg :: msgs) (items ++ msg.stopItems) false
  | next {last msg msg' msgs msgs' items items' done} :
      Performs msg.ignore_nack (msg.plan dev) items true → msg.Received items msg' →
      Transfers dev msg msgs msgs' items' done →
      Transfers dev last (msg :: msgs) (msg' :: msgs') (items ++ items') done

/-- What a run of `i2c_bit_xfer` with result `r` shows on the bus, returns and receives. -/
structure I2cContract (dev : I2cDevice) (msgs : List I2cMsg) (r : I2cBus × Int × List I2cMsg)
    (items : List I2cItem) (done : Bool) : Prop where
  transfers : ∀ msg rest, msgs = msg :: rest → Transfers dev msg msgs r.2.2 items done
  nothing : msgs = [] → items = []
  events : r.1.events = items.flatMap I2cItem.events
  slaveBits : items.flatMap I2cItem.slaveBits = (List.range r.1.turns).map dev.slave.bits
  ret : r.2.1 = msgs.length ↔ ∀ item ∈ items, item.Accepted

end Ab32Vg1.Drivers
