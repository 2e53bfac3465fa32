import Ab32Vg1.Drivers.Sdio
import Ab32Vg1.ProofKit.ByteMemory

/-! The data of one SDIO request of `drv_sdio.c`: where the blocks go in memory, and what the caller
hears of them. -/

namespace Ab32Vg1.Drivers

open Kernel ProofKit

def SDIO_BUFF_SIZE : Nat := 1024

def SDIO_ALIGN_LEN : Nat := 32

/-- Bits of `SDxCON`: the response, or the data of a read, came with a CRC error. -/
def HW_SDIO_CON_CCRCE : BitVec 32 := 1 <<< 14

def HW_SDIO_CON_DCRCE : BitVec 32 := 1 <<< 16

/-- `struct rt_mmcsd_data`, and whether a stop command follows. -/
structure SdioData where
  dir : DataDir
  blks : Nat
  blksize : Nat
  buf : Nat
  stop : Bool
  deriving DecidableEq, Repr

/-- What the waits of a request get, if they do not time out: for the command and for each block the
status word, and for the stop command; what `SDxCON` is after the wait for a block; and the bytes of
each block that the card sends. -/
structure SdioCard where
  command : Option (BitVec 32)
  block : Nat → Option (BitVec 32)
  SDxCON : Nat → BitVec 32
  stop : Option (BitVec 32)
  data : Nat → Bytes

/-- `SDxDMAADR` and the count in `SDxDMACNT`. -/
structure DmaWindow where
  addr : Nat
  size : Nat
  deriving DecidableEq, Repr

/-- `cmd->err` after `rthw_sdio_wait_completed`. -/
def rthw_sdio_wait_completed (status : Option (BitVec 32)) : Int :=
  match status with
  | none => -RT_ETIMEOUT
  | some status => if status &&& HW_SDIO_CON_NRPS = 0 then RT_EOK else -RT_ERROR

/-- The memory, `xfer_blks` of the package, and the errors of the two commands. Not in the code: the
windows so far, the first `early` of them from before the command, and the bytes sent to the card. -/
structure SdioXfer where
  mem : Bytes
  xfer_blks : Nat
  err : Int
  stop_err : Int
  windows : List DmaWindow
  early : Nat
  sent : List UInt8

namespace SdioXfer

/-- The window of a block. -/
def window (d : SdioData) (buff xfer_blks : Nat) : DmaWindow :=
  match d.dir with
  | .write => ⟨buff + xfer_blks * d.blksize, 512⟩
  | .read => ⟨buff + xfer_blks * d.blksize, d.blksize⟩

def rthw_sdio_transfer_by_dma (d : SdioData) (buff : Nat) (s : SdioXfer) : SdioXfer :=
  let w := window d buff s.xfer_blks
  { s with
    windows := s.windows ++ [w]
    sent := if d.dir = .write then s.sent ++ s.mem.range w.addr w.size else s.sent }

/-- The controller writes a block that it receives to the window. -/
def received (d : SdioData) (bytes : Bytes) (s : SdioXfer) : SdioXfer :=
  match d.dir, s.windows.getLast? with
  | .read, some w => { s with mem := s.mem.blit w.addr bytes 0 w.size }
  | _, _ => s

/-- One turn of the loop of `rthw_sdio_send_command`. -/
def turn (card : SdioCard) (d : SdioData) (buff : Nat) (s : SdioXfer) : SdioXfer :=
  let i := s.xfer_blks
  let s := if d.dir = .write ∨ i ≠ 0 then s.rthw_sdio_transfer_by_dma d buff else s
  let s :=
    match card.block i with
    | none => { s with err := -RT_ETIMEOUT }
    | some _ => s.received d (card.data i)
  let s :=
    if d.dir = .write ∧ (card.SDxCON i &&& HW_SDIO_CON_CRCS) >>> 17 ≠ 2 then { s with err := -RT_ERROR }
    else s
  { s with xfer_blks := i + 1 }

/-- The loop, which ends after as many turns as there are blocks. -/
def turns (card : SdioCard) (d : SdioData) (buff : Nat) : Nat → SdioXfer → SdioXfer
  | 0, s => s
  | n + 1, s => turns card d buff n (s.turn card d buff)

/-- `rthw_sdio_send_command` of a command with data. -/
def rthw_sdio_send_command (card : SdioCard) (d : SdioData) (buff : Nat) (s : SdioXfer) : SdioXfer :=
  let s := if d.dir = .read then s.rthw_sdio_transfer_by_dma d buff else s
  let s := { s with early := s.windows.length, err := rthw_sdio_wait_completed card.command }
  s.turns card d buff d.blks

end SdioXfer

/-- `rthw_sdio_request` of a command with data, with the bounce buffer at `cache_buf`. -/
def rthw_sdio_request (card : SdioCard) (d : SdioData) (cache_buf : Nat) (mem : Bytes) :
    Option SdioXfer := do
  let size := d.blks * d.blksize % 2 ^ 32
  RT_ASSERT (size ≤ SDIO_BUFF_SIZE)
  let bounce := d.buf &&& (SDIO_ALIGN_LEN - 1) ≠ 0
  let buff := if bounce then cache_buf else d.buf
  let mem := if bounce ∧ d.dir = .write then mem.copy cache_buf d.buf size else mem
  let s : SdioXfer := ⟨mem, 0, RT_EOK, RT_EOK, [], 0, []⟩
  let s := s.rthw_sdio_send_command card d buff
  let s := if d.dir = .read ∧ bounce then { s with mem := s.mem.copy d.buf cache_buf size } else s
  return if d.stop then { s with stop_err := rthw_sdio_wait_completed card.stop } else s

/-! ### What a request promises -/

namespace SdioData

/-- There are blocks, and they fit in the bounce buffer, which the caller's buffer does not meet. -/
structure Fits (d : SdioData) (cache_buf : Nat) : Prop where
  blks_pos : 0 < d.blks
  size : d.blks * d.blksize ≤ SDIO_BUFF_SIZE
  apart : d.buf + d.blks * d.blksize ≤ cache_buf ∨ cache_buf + SDIO_BUFF_SIZE ≤ d.buf

/-- The buffer of the transfer. -/
def base (d : SdioData) (cache_buf : Nat) : Nat := if d.buf % SDIO_ALIGN_LEN = 0 then d.buf else cache_buf

end SdioData

namespace SdioCard

/-- The command was answered, without a CRC error. -/
def CommandOk (card : SdioCard) : Prop :=
  ∃ status ∈ card.command, status &&& (HW_SDIO_CON_NRPS ||| HW_SDIO_CON_CCRCE) = 0

/-- The block came, without a CRC error, or the card took it. -/
def BlockOk (card : SdioCard) (dir : DataDir) (i : Nat) : Prop :=
  ∃ status ∈ card.block i,
    match dir with
    | .read => status &&& HW_SDIO_CON_DCRCE = 0
    | .write => (card.SDxCON i &&& HW_SDIO_CON_CRCS) >>> 17 = 2

end SdioCard

/-- The windows of a command that succeeds are the blocks of the buffer in their order, and none is
programmed once the command has failed. A read without an error leaves the bytes received in the
caller's buffer, and a write sends those that were there. The caller hears of every failure. -/
structure SdioDataContract (card : SdioCard) (d : SdioData) (cache_buf : Nat) (mem : Bytes)
    (s : SdioXfer) : Prop where
  windows : card.CommandOk →
    s.windows = (List.range d.blks).map fun i => ⟨d.base cache_buf + i * d.blksize, d.blksize⟩
  failed : ¬ card.CommandOk → s.windows.length = s.early
  read : d.dir = .read → s.err = RT_EOK → ∀ i < d.blks, ∀ b < d.blksize,
    s.mem (d.buf + (i * d.blksize + b)) = card.data i b
  write : d.dir = .write → card.CommandOk → s.sent = mem.range d.buf (d.blks * d.blksize)
  err : s.err = RT_EOK → card.CommandOk ∧ ∀ i < d.blks, card.BlockOk d.dir i

/-- A write is of blocks of 512 bytes and its command succeeds. A read whose command fails is of one
block, and one that is answered to its end has no CRC error. -/
def SdioData.Handled (d : SdioData) (card : SdioCard) : Prop :=
  match d.dir with
  | .write => d.blksize = 512 ∧ card.CommandOk
  | .read =>
    (card.CommandOk ∨ d.blks = 1) ∧
    ((∃ status ∈ card.command, status &&& HW_SDIO_CON_NRPS = 0) → (∀ i < d.blks, card.block i ≠ none) →
      card.CommandOk ∧ ∀ i < d.blks, card.BlockOk .read i)

/-! ### The loop over the blocks -/

namespace SdioXfer

variable {card : SdioCard} {d : SdioData} {buff i : Nat} {m : Bytes} {s : SdioXfer}

/-- How many windows are programmed before the `i`-th block: the first one of a read is before the
command. -/
def programmed (dir : DataDir) (i : Nat) : Nat :=
  match dir with
  | .read => max 1 i
  | .write => i

/-- After `i` blocks, of which those that were answered are in place. -/
structure Inv (card : SdioCard) (d : SdioData) (buff : Nat) (m : Bytes) (i : Nat) (s : SdioXfer) :
    Prop where
  xfer_blks : s.xfer_blks = i
  windows : s.windows = (List.range (programmed d.dir i)).map (window d buff)
  early : s.early = programmed d.dir 0
  read : d.dir = .read → ∀ j < i, card.block j ≠ none → ∀ b < d.blksize,
    s.mem (buff + (j * d.blksize + b)) = card.data j b
  write : d.dir = .write →
    s.mem = m ∧ s.sent = (List.range i).flatMap fun j => m.range (buff + j * d.blksize) 512
  err : s.err = RT_EOK ↔ rthw_sdio_wait_completed card.command = RT_EOK ∧ ∀ j < i,
    card.block j ≠ none ∧ (d.dir = .write → (card.SDxCON j &&& HW_SDIO_CON_CRCS) >>> 17 = 2)

theorem received_same (d : SdioData) (bytes : Bytes) (s : SdioXfer) :
    s.received d bytes = { s with mem := (s.received d bytes).mem } := by
  rw [received]
  split <;> rfl

/-- The transfer that a turn programs. -/
def programs (d : SdioData) (buff : Nat) (s : SdioXfer) : SdioXfer :=
  if d.dir = .write ∨ s.xfer_blks ≠ 0 then s.rthw_sdio_transfer_by_dma d buff else s

/-- The failures of a block that a turn notices. -/
def noticed (card : SdioCard) (d : SdioData) (i : Nat) (err : Int) : Int :=
  if d.dir = .write ∧ (card.SDxCON i &&& HW_SDIO_CON_CRCS) >>> 17 ≠ 2 then -RT_ERROR
  else if card.block i = none then -RT_ETIMEOUT
  else err

theorem turn_eq (card : SdioCard) (d : SdioData) (buff : Nat) (s : SdioXfer) :
    s.turn card d buff =
      { s.programs d buff with
        mem :=
          if card.block s.xfer_blks = none then s.mem
          else ((s.programs d buff).received d (card.data s.xfer_blks)).mem
        err := noticed card d s.xfer_blks s.err
        xfer_blks := s.xfer_blks + 1 } := by
  have hsame : (s.programs d buff).mem = s.mem ∧ (s.programs d buff).err = s.err := by
    rw [programs]
    split
    · exact ⟨rfl, rfl⟩
    · exact ⟨rfl, rfl⟩
  simp only [turn, noticed]
  rw [← programs]
  cases hb : card.block s.xfer_blks with
  | none =>
    simp only [if_true]
    split
    · rw [hsame.1]
    · rw [hsame.1]
  | some status =>
    simp only [reduceCtorEq, if_false]
    rw [received_same]
    split
    · rfl
    · rw [hsame.2]

theorem programs_same (d : SdioData) (buff : Nat) (s : SdioXfer) :
    (s.programs d buff).early = s.early ∧ (s.programs d buff).mem = s.mem := by
  rw [programs]
  split
  · exact ⟨rfl, rfl⟩
  · exact ⟨rfl, rfl⟩

theorem Inv.programs_windows (h : Inv card d buff m i s) :
    (s.programs d buff).windows = (List.range (i + 1)).map (window d buff) := by
  have hw := h.windows
  have hi := h.xfer_blks
  rw [programs]
  split
  · next hp =>
    have hn : programmed d.dir i = i := by
      cases hdir : d.dir with
      | write => rfl
      | read =>
        rw [hdir, hi] at hp
        have hpos : i ≠ 0 := hp.resolve_left (by decide)
        exact Nat.max_eq_right (Nat.one_le_iff_ne_zero.mpr hpos)
    rw [rthw_sdio_transfer_by_dma]
    dsimp only
    rw [hw, hn, hi, List.range_succ, List.map_append]
    rfl
  · next hp =>
    rw [not_or, not_not, hi] at hp
    have hdir : d.dir = .read := by
      cases hdir : d.dir with
      | write => exact absurd hdir hp.1
      | read => rfl
    rw [hw, hdir, hp.2]
    rfl

theorem noticed_eq_ok (card : SdioCard) (d : SdioData) (i : Nat) (err : Int) :
    noticed card d i err = RT_EOK ↔ err = RT_EOK ∧ card.block i ≠ none ∧
      (d.dir = .write → (card.SDxCON i &&& HW_SDIO_CON_CRCS) >>> 17 = 2) := by
  rw [noticed]
  split
  · next hcrc => exact ⟨fun h => absurd h (by decide), fun h => absurd (h.2.2 hcrc.1) hcrc.2⟩
  · next hcrc =>
    split
    · next hnone => exact ⟨fun h => absurd h (by decide), fun h => absurd hnone h.2.1⟩
    · next hsome =>
      exact ⟨fun h => ⟨h, hsome, fun hdir => by_contra fun hne => hcrc ⟨hdir, hne⟩⟩, fun h => h.1⟩

/-- One block. -/
theorem Inv.turn (h : Inv card d buff m i s) : Inv card d buff m (i + 1) (s.turn card d buff) := by
  have hi := h.xfer_blks
  have hwin := h.programs_windows
  have hlast : (s.programs d buff).windows.getLast? = some (window d buff i) := by
    rw [hwin, List.range_succ, List.map_append]
    exact List.getLast?_concat ..
  rw [turn_eq, hi]
  refine ⟨rfl, ?_, (programs_same d buff s).1.trans h.early, fun hdir j hj hb b hlt => ?_, fun hdir => ?_, ?_⟩
  · show (s.programs d buff).windows = _
    rw [hwin]
    cases d.dir with
    | read => rw [programmed, Nat.max_eq_right (by omega)]
    | write => rfl
  · -- The block goes to its own window and leaves those before it.
    have hrecv : ((s.programs d buff).received d (card.data i)).mem =
        s.mem.blit (buff + i * d.blksize) (card.data i) 0 d.blksize := by
      rw [received, hdir, hlast]
      dsimp only
      rw [(programs_same d buff s).2, window, hdir]
    dsimp only
    rw [hrecv]
    rcases Nat.lt_succ_iff_lt_or_eq.mp hj with hj | rfl
    · have hmul : (j + 1) * d.blksize ≤ i * d.blksize := Nat.mul_le_mul_right _ hj
      rw [Nat.succ_mul] at hmul
      have hold := h.read hdir j hj hb b hlt
      split
      · exact hold
      · rw [Bytes.blit, if_neg (by omega)]
        exact hold
    · rw [if_neg hb, Bytes.blit, if_pos (by omega)]
      congr 1
      omega
  · obtain ⟨hmem, hsent⟩ := h.write hdir
    have hrecv : ((s.programs d buff).received d (card.data i)).mem = m := by
      rw [received, hdir]
      exact (programs_same d buff s).2.trans hmem
    constructor
    · show (if card.block i = none then s.mem else _) = m
      split
      · exact hmem
      · exact hrecv
    · show (s.programs d buff).sent = _
      rw [programs, if_pos (Or.inl hdir), rthw_sdio_transfer_by_dma]
      dsimp only
      rw [if_pos hdir, hsent, hmem, hi, List.range_succ, List.flatMap_append, window, hdir]
      simp
  · show noticed card d i s.err = RT_EOK ↔ _
    rw [noticed_eq_ok, h.err, and_assoc, Nat.forall_lt_succ_right]

theorem Inv.turns (h : Inv card d buff m i s) (n : Nat) :
    Inv card d buff m (i + n) (s.turns card d buff n) := by
  induction n generalizing i s with
  | zero => exact h
  | succ n ih =>
    rw [SdioXfer.turns, show i + (n + 1) = i + 1 + n by omega]
    exact ih h.turn

/-- The data phase of a request. -/
theorem send_command_inv (hx : s.xfer_blks = 0) (hw : s.windows = []) (hs : s.sent = []) :
    Inv card d buff s.mem d.blks (s.rthw_sdio_send_command card d buff) := by
  have hgo : ∀ s', Inv card d buff s.mem 0 s' → Inv card d buff s.mem d.blks (s'.turns card d buff d.blks) :=
    fun s' h => by
      have h := h.turns d.blks
      rwa [Nat.zero_add] at h
  rw [rthw_sdio_send_command]
  apply hgo
  cases hdir : d.dir with
  | read =>
    simp only [if_true, rthw_sdio_transfer_by_dma, hw, hx]
    exact ⟨rfl, by rw [hdir]; rfl, by rw [hdir]; rfl, fun _ j hj => absurd hj (by omega),
      fun h => (by rw [hdir] at h; cases h), by simp⟩
  | write =>
    simp only [reduceCtorEq, if_false]
    exact ⟨hx, by rw [hdir, hw]; rfl, by rw [hdir, hw]; rfl, fun h => (by rw [hdir] at h; cases h),
      fun _ => ⟨rfl, by rw [hs]; rfl⟩, by simp⟩

end SdioXfer

/-! ### Requests -/

theorem and_or_eq_zero {x a b : BitVec 32} : x &&& (a ||| b) = 0 ↔ x &&& a = 0 ∧ x &&& b = 0 := by
  rw [BitVec.and_or_distrib_left]
  exact BitVec.or_eq_zero_iff

theorem wait_eq_ok {status : Option (BitVec 32)} :
    rthw_sdio_wait_completed status = RT_EOK ↔ ∃ st ∈ status, st &&& HW_SDIO_CON_NRPS = 0 := by
  cases status with
  | none => exact ⟨fun h => absurd h (by decide), fun h => (by obtain ⟨st, h, -⟩ := h; cases h)⟩
  | some st =>
    rw [rthw_sdio_wait_completed]
    split
    · next h => exact ⟨fun _ => ⟨st, rfl, h⟩, fun _ => rfl⟩
    · next h =>
      refine ⟨fun he => absurd he (by decide), fun he => ?_⟩
      obtain ⟨st', hst, h0⟩ := he
      cases hst
      exact absurd h0 h

theorem SdioCard.CommandOk.answered {card : SdioCard} (h : card.CommandOk) :
    ∃ st ∈ card.command, st &&& HW_SDIO_CON_NRPS = 0 := by
  obtain ⟨st, hst, h0⟩ := h
  exact ⟨st, hst, (and_or_eq_zero.mp h0).1⟩

/-- Blocks in their order are one range. -/
theorem range_blocks (m : Bytes) (a size n : Nat) :
    ((List.range n).flatMap fun i => m.range (a + i * size) size) = m.range a (n * size) := by
  induction n with
  | zero => simp [Bytes.range_zero]
  | succ n ih =>
    rw [List.range_succ, List.flatMap_append, ih, Nat.succ_mul, Bytes.range_add]
    simp

section Request

variable {card : SdioCard} {d : SdioData} {cache_buf : Nat} {mem : Bytes}

theorem SdioData.bounces (d : SdioData) : d.buf &&& (SDIO_ALIGN_LEN - 1) ≠ 0 ↔ d.buf % SDIO_ALIGN_LEN ≠ 0 := by
  rw [show d.buf &&& (SDIO_ALIGN_LEN - 1) = d.buf % SDIO_ALIGN_LEN from
    Nat.and_two_pow_sub_one_eq_mod d.buf 5]

/-- What a request has made of its buffer before the transfer and makes of it afterwards. -/
theorem request_eq (hfit : d.Fits cache_buf) : ∃ s m r,
    rthw_sdio_request card d cache_buf mem = some s ∧
    SdioXfer.Inv card d (d.base cache_buf) m d.blks r ∧
    (s.windows = r.windows ∧ s.early = r.early ∧ s.sent = r.sent ∧ s.err = r.err) ∧
    (d.dir = .write → m.range (d.base cache_buf) (d.blks * d.blksize) =
      mem.range d.buf (d.blks * d.blksize)) ∧
    (d.dir = .read → ∀ x < d.blks * d.blksize, s.mem (d.buf + x) = r.mem (d.base cache_buf + x)) := by
  have hsize := hfit.size
  have hmax : SDIO_BUFF_SIZE = 1024 := rfl
  have hsmall : d.blks * d.blksize % 2 ^ 32 = d.blks * d.blksize := Nat.mod_eq_of_lt (by omega)
  have hstop (s : SdioXfer) (e : Int) : (if d.stop = true then { s with stop_err := e } else s) =
      { s with stop_err := if d.stop = true then e else s.stop_err } := by
    split <;> rfl
  simp only [rthw_sdio_request, hsmall, RT_ASSERT_true hsize, SdioData.bounces, Option.pure_def,
    Option.bind_eq_bind, Option.bind_some, hstop]
  by_cases hal : d.buf % SDIO_ALIGN_LEN = 0
  · have hbase : d.base cache_buf = d.buf := if_pos hal
    simp only [hal, hbase, ne_eq, not_true_eq_false, if_false, false_and, and_false]
    have hrun := @SdioXfer.send_command_inv card d d.buf ⟨mem, 0, RT_EOK, RT_EOK, [], 0, []⟩ rfl rfl rfl
    exact ⟨_, _, _, rfl, hrun, ⟨rfl, rfl, rfl, rfl⟩, fun _ => rfl, fun _ _ _ => rfl⟩
  · have hbase : d.base cache_buf = cache_buf := if_neg hal
    simp only [hal, hbase, ne_eq, not_false_eq_true, if_true, true_and, and_true]
    have hrun := @SdioXfer.send_command_inv card d cache_buf
      ⟨if d.dir = .write then mem.copy cache_buf d.buf (d.blks * d.blksize) else mem, 0, RT_EOK, RT_EOK,
        [], 0, []⟩ rfl rfl rfl
    refine ⟨_, _, _, rfl, hrun, ?_, fun hdir => ?_, fun hdir x hx => ?_⟩
    · split <;> exact ⟨rfl, rfl, rfl, rfl⟩
    · dsimp only
      rw [if_pos hdir]
      exact Bytes.range_blit d.buf
    · dsimp only
      rw [if_pos hdir]
      show (if _ then _ else _) = _
      rw [if_pos (by omega), Nat.add_sub_cancel_left]

/-- A request does what it promises exactly where the command and the block size let it. -/
theorem rthw_sdio_request_transfers (hfit : d.Fits cache_buf) : ∃ s,
    rthw_sdio_request card d cache_buf mem = some s ∧
    (SdioDataContract card d cache_buf mem s ↔ d.Handled card) := by
  obtain ⟨s, m, r, hs, hinv, ⟨hwin, hearly, hsent, herr⟩, hwrite, hread⟩ := @request_eq card d cache_buf mem hfit
  refine ⟨s, hs, ?_⟩
  rw [hinv.windows] at hwin
  rw [hinv.early] at hearly
  rw [SdioData.Handled]
  have hblks := hfit.blks_pos
  have herr' := hinv.err
  rw [← herr, wait_eq_ok] at herr'
  cases hdir : d.dir with
  | write =>
    obtain ⟨-, hsent'⟩ := hinv.write hdir
    rw [← hsent] at hsent'
    rw [hdir] at hwin hearly
    dsimp only
    constructor
    · intro h
      have hok : card.CommandOk := by
        by_contra hno
        have hlen := h.failed hno
        rw [hwin, hearly, List.length_map, List.length_range] at hlen
        exact Nat.ne_of_gt hblks hlen
      have hall := h.windows hok
      rw [hwin] at hall
      have hfirst := List.map_inj_left.mp hall 0 (List.mem_range.mpr hblks)
      rw [SdioXfer.window, hdir] at hfirst
      exact ⟨(DmaWindow.mk.inj hfirst).2.symm, hok⟩
    · rintro ⟨h512, hok⟩
      refine ⟨fun _ => ?_, fun hno => absurd hok hno, fun h => (by rw [hdir] at h; cases h), fun _ _ => ?_,
        fun he => ⟨hok, fun i hi => ?_⟩⟩
      · rw [hwin]
        apply List.map_congr_left
        intro i _
        rw [SdioXfer.window, hdir, h512]
      · rw [hsent', ← hwrite hdir, ← range_blocks]
        simp only [h512]
      · obtain ⟨hans, hcrc⟩ := (herr'.mp he).2 i hi
        obtain ⟨st, hst⟩ := Option.ne_none_iff_exists'.mp hans
        rw [hdir]
        exact ⟨st, hst, hcrc hdir⟩
  | read =>
    rw [hdir] at hwin hearly
    have hn : SdioXfer.programmed .read d.blks = d.blks := Nat.max_eq_right hblks
    rw [hn] at hwin
    dsimp only
    constructor
    · intro h
      constructor
      · by_contra hno
        rw [not_or] at hno
        have hlen := h.failed hno.1
        rw [hwin, hearly, List.length_map, List.length_range] at hlen
        exact hno.2 hlen
      · intro hcmd hblock
        have he := herr'.mpr ⟨hcmd, fun i hi => ⟨hblock i hi, fun hw => (by rw [hdir] at hw; cases hw)⟩⟩
        have hok := h.err he
        rwa [hdir] at hok
    · rintro ⟨hcmd, hcrc⟩
      refine ⟨fun _ => ?_, fun hno => ?_, fun _ he i hi b hb => ?_, fun h => (by rw [hdir] at h; cases h),
        fun he => ?_⟩
      · rw [hwin]
        apply List.map_congr_left
        intro i _
        rw [SdioXfer.window, hdir]
      · rw [hwin, hearly, List.length_map, List.length_range, hcmd.resolve_left hno]
        rfl
      · have hlt : i * d.blksize + b < d.blks * d.blksize := by
          have hmul : (i + 1) * d.blksize ≤ d.blks * d.blksize := Nat.mul_le_mul_right _ hi
          rw [Nat.succ_mul] at hmul
          omega
        rw [hread hdir _ hlt]
        exact hinv.read hdir i hi ((herr'.mp he).2 i hi).1 b hb
      · obtain ⟨hans, hblock⟩ := herr'.mp he
        rw [hdir]
        exact hcrc hans fun i hi => (hblock i hi).1

end Request

/-- Two blocks that come without an error. -/
def goodCard : SdioCard where
  command := some HW_SDIO_CON_CFLAG
  block _ := some HW_SDIO_CON_DFLAG
  SDxCON _ := 2 <<< 17
  stop := some HW_SDIO_CON_CFLAG
  data i b := UInt8.ofNat (i + b)

/-- A read of two blocks to an unaligned buffer. -/
def readUnaligned : SdioData := ⟨.read, 2, 512, 0x1001, true⟩

theorem rthw_sdio_request_transfers_readUnaligned : ∃ s,
    rthw_sdio_request goodCard readUnaligned 0x8000 (fun _ => 0) = some s ∧
    (SdioDataContract goodCard readUnaligned 0x8000 (fun _ => 0) s ↔ readUnaligned.Handled goodCard) :=
  rthw_sdio_request_transfers ⟨by decide, by decide, by decide⟩

/-- A write of one block of 64 bytes sends 512. -/
theorem rthw_sdio_request_overruns : ∃ s,
    rthw_sdio_request goodCard ⟨.write, 1, 64, 0x1000, false⟩ 0x8000 (fun _ => 0) = some s ∧
    s.windows = [⟨0x1000, 512⟩] ∧
    ¬ SdioDataContract goodCard ⟨.write, 1, 64, 0x1000, false⟩ 0x8000 (fun _ => 0) s := by
  refine ⟨_, rfl, rfl, fun h => ?_⟩
  have hwin := h.windows ⟨_, rfl, by decide⟩
  revert hwin
  decide

end Ab32Vg1.Drivers
