import Mathlib.Data.Int.Basic
import Ab32Vg1.Kernel.Def
import Ab32Vg1.ProofKit.Fuel

/-! The block device of an SD card: `block_dev.c` over the requests of `mmcsd_core.c`.  A transfer is
split into requests, and a status polling follows each write in the command that carried it. -/

namespace Ab32Vg1.Drivers

open Kernel

def SECTOR_SIZE : Nat := 512

def EIO : Int := 5

def STOP_TRANSMISSION : Nat := 12

def SEND_STATUS : Nat := 13

def READ_SINGLE_BLOCK : Nat := 17

def READ_MULTIPLE_BLOCK : Nat := 18

def WRITE_BLOCK : Nat := 24

def WRITE_MULTIPLE_BLOCK : Nat := 25

def RESP_R1 : BitVec 32 := 1

def RESP_R1B : BitVec 32 := 2

def CMD_AC : BitVec 32 := 0

def CMD_ADTC : BitVec 32 := 1 <<< 4

def RESP_SPI_R1 : BitVec 32 := 1 <<< 6

def RESP_SPI_R1B : BitVec 32 := 2 <<< 6

def R1_READY_FOR_DATA : BitVec 32 := 1 <<< 8

def R1_CURRENT_STATE (x : BitVec 32) : BitVec 32 := (x &&& 0x00001E00) >>> 9

/-- `struct rt_mmcsd_cmd`, with the first word of its response. -/
structure MmcsdCmd where
  cmd_code : Nat
  arg : BitVec 32
  resp : BitVec 32
  flags : BitVec 32
  retries : Int
  err : Int
  deriving DecidableEq, Repr

inductive DataDir
  | read
  | write
  deriving DecidableEq, Repr

/-- `struct rt_mmcsd_data`; `flags` is the direction that it carries. -/
structure MmcsdData where
  blksize : Nat
  blks : Nat
  buf : BitVec 32
  flags : DataDir
  err : Int
  deriving DecidableEq, Repr

structure MmcsdReq where
  data : Option MmcsdData
  cmd : MmcsdCmd
  stop : Option MmcsdCmd
  deriving DecidableEq, Repr

structure StatusReply where
  err : Int
  resp : BitVec 32

/-- A host.  `transfer`, `stop` and `status` are what its request operation reports: the errors of the
data command and of the stop command of each request that carries data, and the answers to the
commands without data that follow it. -/
structure MmcsdHost where
  is_spi : Bool
  transfer : Nat → Int
  stop : Nat → Int
  status : Nat → Nat → StatusReply

/-- What the host was asked for: the requests that carry data, in order, and the number of commands
since the last of them. -/
structure Bus where
  requests : List MmcsdReq
  polled : Nat
  deriving DecidableEq, Repr

structure MmcsdCard where
  sdhc : Bool
  rca : BitVec 32

structure MmcsdBlkDevice where
  card : MmcsdCard
  host : MmcsdHost
  part_offset : BitVec 32
  max_req_size : Nat

namespace MmcsdHost

/-- The request operation reports in `cmd->err`, also for the stop command. -/
def request (host : MmcsdHost) (bus : Bus) (req : MmcsdReq) : Bus × MmcsdReq :=
  match req.data with
  | some _ =>
    let k := bus.requests.length
    (⟨bus.requests ++ [req], 0⟩,
      { req with
        cmd := { req.cmd with err := host.transfer k }
        stop := req.stop.map fun stop => { stop with err := host.stop k } })
  | none =>
    let reply := host.status (bus.requests.length - 1) bus.polled
    (⟨bus.requests, bus.polled + 1⟩,
      { req with cmd := { req.cmd with err := reply.err, resp := reply.resp } })

/-- One round of the loop of `mmcsd_send_request`. -/
def attempt (host : MmcsdHost) (bus : Bus) (req : MmcsdReq) : Bus × MmcsdReq :=
  let cmd := { req.cmd with retries := req.cmd.retries - 1, err := 0 }
  match req.data with
  | some data =>
    host.request bus
      ⟨some { data with err := 0 }, cmd, req.stop.map fun stop => { stop with err := 0 }⟩
  | none => host.request bus ⟨none, cmd, req.stop⟩

/-- The loop of `mmcsd_send_request`, which `n` more rounds are enough for. -/
def sendLoop (host : MmcsdHost) : (n : Nat) → (bus : Bus) → (req : MmcsdReq) → Bus × MmcsdReq
  | 0, bus, req => host.attempt bus req
  | n + 1, bus, req =>
    let (bus, req) := host.attempt bus req
    if req.cmd.err ≠ 0 ∧ req.cmd.retries > 0 then host.sendLoop n bus req else (bus, req)

def mmcsd_send_request (host : MmcsdHost) (bus : Bus) (req : MmcsdReq) : Bus × MmcsdReq :=
  host.sendLoop req.cmd.retries.toNat bus req

def mmcsd_send_cmd (host : MmcsdHost) (bus : Bus) (cmd : MmcsdCmd) (retries : Int) :
    Bus × MmcsdCmd :=
  let (bus, req) := host.mmcsd_send_request bus ⟨none, { cmd with resp := 0, retries }, none⟩
  (bus, req.cmd)

/-- The status polling of `rt_mmcsd_req_blk`, which stops at an error or when the card is ready. -/
def pollStatus (host : MmcsdHost) (card : MmcsdCard) :
    (fuel : Nat) → (bus : Bus) → (cmd : MmcsdCmd) → Option (Bus × MmcsdCmd)
  | 0, _, _ => none
  | fuel + 1, bus, cmd =>
    let cmd := { cmd with
      cmd_code := SEND_STATUS, arg := card.rca <<< 16, flags := RESP_R1 ||| CMD_AC }
    let (bus, cmd) := host.mmcsd_send_cmd bus cmd 5
    if cmd.err ≠ 0 then some (bus, cmd)
    else if cmd.resp &&& R1_READY_FOR_DATA = 0 ∨ R1_CURRENT_STATE cmd.resp = 7 then
      host.pollStatus card fuel bus cmd
    else some (bus, cmd)

end MmcsdHost

/-- Whether a request ends with a stop command. -/
def stopSent (host : MmcsdHost) (blks : Nat) (dir : DataDir) : Bool :=
  blks > 1 && (!host.is_spi || dir = .read)

/-- The request that `rt_mmcsd_req_blk` sets up. -/
def blkRequest (host : MmcsdHost) (card : MmcsdCard) (sector buf : BitVec 32) (blks : Nat)
    (dir : DataDir) : MmcsdReq where
  data := some { blksize := SECTOR_SIZE, blks, buf, flags := dir, err := 0 }
  cmd :=
    { cmd_code :=
        match dir with
        | .read => if blks > 1 then READ_MULTIPLE_BLOCK else READ_SINGLE_BLOCK
        | .write => if blks > 1 then WRITE_MULTIPLE_BLOCK else WRITE_BLOCK
      arg := if card.sdhc then sector else sector <<< 9
      resp := 0, flags := RESP_SPI_R1 ||| RESP_R1 ||| CMD_ADTC, retries := 0, err := 0 }
  stop :=
    if stopSent host blks dir then
      some { cmd_code := STOP_TRANSMISSION, arg := 0, resp := 0,
             flags := RESP_SPI_R1B ||| RESP_R1B ||| CMD_AC, retries := 0, err := 0 }
    else none

def rt_mmcsd_req_blk (fuel : Nat) (host : MmcsdHost) (card : MmcsdCard) (bus : Bus)
    (sector buf : BitVec 32) (blks : Nat) (dir : DataDir) : Option (Bus × Int) := do
  let (bus, req) := host.mmcsd_send_request bus (blkRequest host card sector buf blks dir)
  let (bus, cmd) ←
    if !host.is_spi && dir = .write then host.pollStatus card fuel bus req.cmd
    else some (bus, req.cmd)
  let data_err := (req.data.map (·.err)).getD 0
  -- A stop command that is not sent stays cleared.
  let stop_err := (req.stop.map (·.err)).getD 0
  if cmd.err ≠ 0 ∨ data_err ≠ 0 ∨ stop_err ≠ 0 then return (bus, -RT_ERROR) else return (bus, RT_EOK)

/-- What a transfer returns, with the errno that it sets. -/
structure Transferred where
  ret : Nat
  errno : Option Int
  bus : Bus
  deriving DecidableEq, Repr

/-- The loop of `rt_mmcsd_read` and of `rt_mmcsd_write`. -/
def blkLoop (dev : MmcsdBlkDevice) (dir : DataDir) (pos : BitVec 32) :
    (fuel offset remain_size : Nat) → (ptr : BitVec 32) → (bus : Bus) → Option (Bus × Int × Nat)
  | 0, _, _, _, _ => none
  | fuel + 1, offset, remain_size, ptr, bus =>
    if remain_size = 0 then some (bus, 0, remain_size)
    else do
      let req_size := if remain_size > dev.max_req_size then dev.max_req_size else remain_size
      let (bus, err) ← rt_mmcsd_req_blk fuel dev.host dev.card bus
        (dev.part_offset + pos + BitVec.ofNat 32 offset) ptr req_size dir
      if err ≠ 0 then some (bus, err, remain_size)
      else
        blkLoop dev dir pos fuel (offset + req_size) (remain_size - req_size)
          (ptr + BitVec.ofNat 32 (req_size * 2 ^ 9)) bus

/-- `rt_mmcsd_read` and `rt_mmcsd_write` differ in the direction only. -/
def blkTransfer (fuel : Nat) (dev : MmcsdBlkDevice) (dir : DataDir) (pos buffer : BitVec 32)
    (size : Nat) (bus : Bus) : Option Transferred := do
  let (bus, err, remain_size) ← blkLoop dev dir pos fuel 0 size buffer bus
  if err ≠ 0 then return ⟨0, some (- EIO), bus⟩ else return ⟨size - remain_size, none, bus⟩

def rt_mmcsd_read (fuel : Nat) (dev : MmcsdBlkDevice) (pos buffer : BitVec 32) (size : Nat)
    (bus : Bus) : Option Transferred :=
  blkTransfer fuel dev .read pos buffer size bus

def rt_mmcsd_write (fuel : Nat) (dev : MmcsdBlkDevice) (pos buffer : BitVec 32) (size : Nat)
    (bus : Bus) : Option Transferred :=
  blkTransfer fuel dev .write pos buffer size bus

end Ab32Vg1.Drivers
