import Mathlib.Tactic.Common
import Ab32Vg1.Drivers.Mmcsd

/-! What a transfer of the SD block device reports.  A write is polled in the command that carried it,
so its own error is seen only where the stop command or the polling fails as well. -/

namespace Ab32Vg1.Drivers

open Kernel ProofKit

/-- The answer that ends the status polling. -/
def StatusReply.Ready (reply : StatusReply) : Prop :=
  reply.err = 0 ∧ ¬(reply.resp &&& R1_READY_FOR_DATA = 0 ∨ R1_CURRENT_STATE reply.resp = 7)

namespace MmcsdHost

/-- All five tries of a status command fail, from answer `i` on. -/
def TriesFail (host : MmcsdHost) (k i : Nat) : Prop := ∀ j < 5, (host.status k (i + j)).err ≠ 0

/-- The polling after request `k` ends, from answer `i` on. -/
def PollEnds (host : MmcsdHost) (k i : Nat) : Prop :=
  ∃ m, i ≤ m ∧ (host.TriesFail k m ∨ (host.status k m).Ready)

/-- The polling after request `k` ends with an error, from answer `i` on. -/
def PollFails (host : MmcsdHost) (k i : Nat) : Prop :=
  ∃ m, i ≤ m ∧ host.TriesFail k m ∧ ∀ j, i ≤ j → j < m → ¬(host.status k j).Ready

/-- Whether a transfer is polled: a write, on a host that is not an SPI controller. -/
def polls (host : MmcsdHost) (dir : DataDir) : Bool := !host.is_spi && dir = .write

/-- What `rt_mmcsd_req_blk` sees of a failure of request `k`. -/
def Seen (host : MmcsdHost) (dir : DataDir) (blks k : Nat) : Prop :=
  (if host.polls dir then host.PollFails k 0 else host.transfer k ≠ 0) ∨
    stopSent host blks dir ∧ host.stop k ≠ 0

end MmcsdHost

/-- The blocks of request `k`. -/
def MmcsdBlkDevice.blks (dev : MmcsdBlkDevice) (size k : Nat) : Nat :=
  min dev.max_req_size (size - k * dev.max_req_size)

/-- No request is seen to fail before request `k`, and there is one. -/
def MmcsdBlkDevice.Reached (dev : MmcsdBlkDevice) (dir : DataDir) (size k : Nat) : Prop :=
  k * dev.max_req_size < size ∧ ∀ j < k, ¬dev.host.Seen dir (dev.blks size j) j

/-- A polled request is answered, and where its data command fails the failure is seen. -/
def MmcsdBlkDevice.ErrorsSeen (dev : MmcsdBlkDevice) (dir : DataDir) (size : Nat) : Prop :=
  ∀ k, dev.Reached dir size k →
    (dev.host.polls dir → dev.host.PollEnds k 0) ∧
      (dev.host.transfer k ≠ 0 → dev.host.Seen dir (dev.blks size k) k)

/-- The address of a sector, as a card takes it. -/
def MmcsdCard.address (card : MmcsdCard) (sector : BitVec 32) : BitVec 32 :=
  if card.sdhc then sector else sector <<< 9

/-- The sectors of a request, each with its place in memory. -/
def MmcsdReq.covers (req : MmcsdReq) (card : MmcsdCard) : List (BitVec 32 × BitVec 32) :=
  match req.data with
  | none => []
  | some data => (List.range data.blks).map fun i =>
      (req.cmd.arg + card.address (BitVec.ofNat 32 i), data.buf + BitVec.ofNat 32 (i * 2 ^ 9))

/-- The first `n` sectors of a transfer, each with its place in memory. -/
def MmcsdBlkDevice.sectors (dev : MmcsdBlkDevice) (pos buffer : BitVec 32) (n : Nat) :
    List (BitVec 32 × BitVec 32) :=
  (List.range n).map fun i =>
    (dev.card.address (dev.part_offset + pos + BitVec.ofNat 32 i),
      buffer + BitVec.ofNat 32 (i * 2 ^ 9))

/-- A request of at most `max_req_size` blocks, with the command for its direction. -/
structure WellFormed (dev : MmcsdBlkDevice) (dir : DataDir) (req : MmcsdReq) : Prop where
  data : ∃ data, req.data = some data ∧ data.flags = dir ∧ data.blksize = SECTOR_SIZE ∧
    0 < data.blks ∧ data.blks ≤ dev.max_req_size ∧
    req.cmd.cmd_code = (blkRequest dev.host dev.card 0 0 data.blks dir).cmd.cmd_code

/-- What a transfer owes to its caller. -/
structure BlkContract (dev : MmcsdBlkDevice) (dir : DataDir) (pos buffer : BitVec 32) (size : Nat)
    (r : Transferred) : Prop where
  covered : ∃ n, n ≤ size ∧ r.bus.requests.flatMap (·.covers dev.card) = dev.sectors pos buffer n ∧
    (r.errno = none → n = size)
  requests : ∀ req ∈ r.bus.requests, WellFormed dev dir req
  outcome : r.errno = none ∧ r.ret = size ∧ (∀ k < r.bus.requests.length, dev.host.transfer k = 0) ∨
    r.ret = 0 ∧ r.errno = some (- EIO)
  reported : ∀ k < r.bus.requests.length, dev.host.transfer k ≠ 0 →
    r.errno = some (- EIO) ∧ r.bus.requests.length = k + 1
  succeeds : (∀ k, dev.host.transfer k = 0 ∧ dev.host.stop k = 0 ∧
    ∀ i, (dev.host.status k i).err = 0) → r.errno = none

namespace MmcsdHost

variable {host : MmcsdHost} {card : MmcsdCard} {rs : List MmcsdReq} {k i n fuel : Nat}
  {bus bus' : Bus} {cmd cmd' : MmcsdCmd}

/-- How a status command of `n` tries ends, from answer `i` on. -/
inductive Tried (host : MmcsdHost) (rs : List MmcsdReq) (k i n : Nat) : Bus → MmcsdCmd → Prop
  | failed {cmd : MmcsdCmd} (hall : ∀ j < n, (host.status k (i + j)).err ≠ 0) (herr : cmd.err ≠ 0) :
      Tried host rs k i n ⟨rs, i + n⟩ cmd
  | answered {cmd : MmcsdCmd} {j : Nat} (hj : j < n)
      (hbefore : ∀ l < j, (host.status k (i + l)).err ≠ 0) (hok : (host.status k (i + j)).err = 0)
      (herr : cmd.err = 0) (hresp : cmd.resp = (host.status k (i + j)).resp) :
      Tried host rs k i n ⟨rs, i + j + 1⟩ cmd

theorem attempt_status (hk : rs.length - 1 = k) :
    host.attempt ⟨rs, i⟩ ⟨none, cmd, none⟩ = (⟨rs, i + 1⟩, ⟨none,
      { cmd with
        retries := cmd.retries - 1, err := (host.status k i).err, resp := (host.status k i).resp },
      none⟩) := by
  subst hk
  rfl

theorem sendLoop_tried (hk : rs.length - 1 = k) :
    ∀ {n : Nat} (i : Nat) (cmd : MmcsdCmd), cmd.retries = n → 0 < n →
      Tried host rs k i n (host.sendLoop n ⟨rs, i⟩ ⟨none, cmd, none⟩).1
        (host.sendLoop n ⟨rs, i⟩ ⟨none, cmd, none⟩).2.cmd := by
  intro n
  induction n with
  | zero =>
    intro i cmd _ hpos
    omega
  | succ n ih =>
    intro i cmd hn _
    rw [sendLoop, attempt_status hk]
    dsimp only
    have hretries : cmd.retries - 1 = (n : Int) := by omega
    by_cases herr : (host.status k i).err = 0
    · rw [if_neg fun h => h.1 herr]
      exact .answered (Nat.succ_pos n) (fun l hl => absurd hl (Nat.not_lt_zero l)) herr herr rfl
    · have hfirst : ∀ j < 1, (host.status k (i + j)).err ≠ 0 := fun j hj => by
        obtain rfl : j = 0 := by omega
        exact herr
      by_cases hz : n = 0
      · subst hz
        rw [if_neg fun h => by simp [hretries] at h]
        exact .failed hfirst herr
      · rw [if_pos ⟨herr, by simp only [hretries]; omega⟩]
        have hrest := ih (i + 1)
          { cmd with
            retries := cmd.retries - 1, err := (host.status k i).err,
            resp := (host.status k i).resp } hretries (by omega)
        have hshift : ∀ j, i + 1 + j = i + (j + 1) := fun j => by omega
        generalize host.sendLoop n _ _ = r at hrest ⊢
        obtain ⟨bus, req⟩ := r
        simp only at hrest ⊢
        cases hrest with
        | failed hall herr' =>
          rw [hshift]
          refine .failed (fun j hj => ?_) herr'
          cases j with
          | zero => exact herr
          | succ j => exact hshift j ▸ hall j (by omega)
        | @answered _ j hj hbefore hok herr' hresp =>
          rw [hshift] at hok hresp ⊢
          refine .answered (by omega) (fun l hl => ?_) hok herr' hresp
          cases l with
          | zero => exact herr
          | succ l => exact hshift l ▸ hbefore l (by omega)

variable (host) in
theorem mmcsd_send_cmd_tried (hk : rs.length - 1 = k) (cmd : MmcsdCmd) :
    Tried host rs k i 5 (host.mmcsd_send_cmd ⟨rs, i⟩ cmd 5).1
      (host.mmcsd_send_cmd ⟨rs, i⟩ cmd 5).2 :=
  sendLoop_tried hk i { cmd with resp := 0, retries := 5 } rfl (by omega)

/-- An answer that comes after failed tries, and is no readiness, leaves what follows as it is. -/
theorem pollFails_again {j : Nat} (hj : j < 5)
    (hbefore : ∀ l < j, (host.status k (i + l)).err ≠ 0) (hok : (host.status k (i + j)).err = 0)
    (hbusy : ¬(host.status k (i + j)).Ready) :
    (host.PollFails k i ↔ host.PollFails k (i + j + 1)) := by
  constructor
  · rintro ⟨m, him, hfail, hready⟩
    have hm : i + j < m := by
      by_contra hle
      have := hfail (i + j - m) (by omega)
      rw [show m + (i + j - m) = i + j by omega] at this
      exact this hok
    exact ⟨m, hm, hfail, fun l hl hlm => hready l (by omega) hlm⟩
  · rintro ⟨m, him, hfail, hready⟩
    refine ⟨m, by omega, hfail, fun l hl hlm hr => ?_⟩
    rcases Nat.lt_trichotomy l (i + j) with hlt | rfl | hgt
    · have := hbefore (l - i) (by omega)
      rw [show i + (l - i) = l by omega] at this
      exact this hr.1
    · exact hbusy hr
    · exact hready l hgt hlm hr

/-- The event that ends the polling comes after the answers that do not. -/
theorem pollEnds_again {j m : Nat} (hj : j < 5)
    (hbefore : ∀ l < j, (host.status k (i + l)).err ≠ 0) (hok : (host.status k (i + j)).err = 0)
    (hbusy : ¬(host.status k (i + j)).Ready) (him : i ≤ m)
    (hend : host.TriesFail k m ∨ (host.status k m).Ready) : i + j < m := by
  by_contra hle
  have hshift : m + (i + j - m) = i + j := by omega
  rcases hend with hfail | hready
  · have := hfail (i + j - m) (by omega)
    rw [hshift] at this
    exact this hok
  · by_cases heq : m = i + j
    · exact hbusy (heq ▸ hready)
    · have := hbefore (m - i) (by omega)
      rw [show i + (m - i) = m by omega] at this
      exact this hready.1

theorem pollStatus_succ :
    host.pollStatus card (fuel + 1) bus cmd =
      let sent := host.mmcsd_send_cmd bus
        { cmd with cmd_code := SEND_STATUS, arg := card.rca <<< 16, flags := RESP_R1 ||| CMD_AC } 5
      if sent.2.err ≠ 0 then some sent
      else if sent.2.resp &&& R1_READY_FOR_DATA = 0 ∨ R1_CURRENT_STATE sent.2.resp = 7 then
        host.pollStatus card fuel sent.1 sent.2
      else some sent :=
  rfl

/-- What a polling that ends has seen. -/
theorem pollStatus_post (hk : rs.length - 1 = k) :
    ∀ {fuel i : Nat} {cmd : MmcsdCmd}, host.pollStatus card fuel ⟨rs, i⟩ cmd = some (bus', cmd') →
      bus'.requests = rs ∧ (cmd'.err ≠ 0 ↔ host.PollFails k i) ∧ host.PollEnds k i := by
  intro fuel
  induction fuel with
  | zero =>
    intro i cmd h
    cases h
  | succ fuel ih =>
    intro i cmd h
    rw [pollStatus_succ] at h
    dsimp only at h
    have htried := mmcsd_send_cmd_tried host (i := i) hk
      { cmd with cmd_code := SEND_STATUS, arg := card.rca <<< 16, flags := RESP_R1 ||| CMD_AC }
    generalize host.mmcsd_send_cmd _ _ _ = sent at htried h
    obtain ⟨bus, cmd⟩ := sent
    simp only at htried h
    cases htried with
    | failed hall herr =>
      rw [if_pos herr] at h
      obtain ⟨rfl, rfl⟩ := Prod.mk.inj (Option.some.inj h)
      exact ⟨rfl, iff_of_true herr ⟨i, le_rfl, hall, fun j hj hji => by omega⟩,
        i, le_rfl, Or.inl hall⟩
    | @answered _ j hj hbefore hok herr hresp =>
      rw [if_neg (not_not.mpr herr)] at h
      split at h
      · next hbusy =>
        have hbusy : ¬(host.status k (i + j)).Ready := fun hr => hr.2 (hresp ▸ hbusy)
        obtain ⟨hrs, hfails, m, him, hend⟩ := ih h
        exact ⟨hrs, hfails.trans (pollFails_again hj hbefore hok hbusy).symm, m, by omega, hend⟩
      · next hready =>
        obtain ⟨rfl, rfl⟩ := Prod.mk.inj (Option.some.inj h)
        have hr : (host.status k (i + j)).Ready := ⟨hok, hresp ▸ hready⟩
        refine ⟨rfl, iff_of_false (not_not.mpr herr) ?_, i + j, by omega, Or.inr hr⟩
        rintro ⟨m, him, hfail, hnone⟩
        by_cases hm : i + j < m
        · exact hnone (i + j) (by omega) hm hr
        · have := hfail (i + j - m) (by omega)
          rw [show m + (i + j - m) = i + j by omega] at this
          exact this hok

theorem pollStatus_total (hk : rs.length - 1 = k) (hends : host.PollEnds k i) :
    ∃ n, ∀ fuel, n < fuel → ∀ cmd, ∃ r, host.pollStatus card fuel ⟨rs, i⟩ cmd = some r := by
  obtain ⟨m, him, hend⟩ := hends
  refine ⟨m - i, ?_⟩
  intro fuel
  induction fuel generalizing i with
  | zero => exact fun h => by omega
  | succ fuel ih =>
    intro hfuel cmd
    rw [pollStatus_succ]
    dsimp only
    have htried := mmcsd_send_cmd_tried host (i := i) hk
      { cmd with cmd_code := SEND_STATUS, arg := card.rca <<< 16, flags := RESP_R1 ||| CMD_AC }
    generalize host.mmcsd_send_cmd _ _ _ = sent at htried ⊢
    obtain ⟨bus, cmd⟩ := sent
    simp only at htried ⊢
    cases htried with
    | failed hall herr => exact ⟨_, if_pos herr⟩
    | @answered _ j hj hbefore hok herr hresp =>
      rw [if_neg (not_not.mpr herr)]
      split
      · next hbusy =>
        have hbusy : ¬(host.status k (i + j)).Ready := fun hr => hr.2 (hresp ▸ hbusy)
        have hm := pollEnds_again hj hbefore hok hbusy him hend
        exact ih (i := i + j + 1) hm (by omega) _
      · exact ⟨_, rfl⟩

end MmcsdHost

/-- The request as the host receives it. -/
def issued (host : MmcsdHost) (card : MmcsdCard) (sector buf : BitVec 32) (blks : Nat)
    (dir : DataDir) : MmcsdReq :=
  let req := blkRequest host card sector buf blks dir
  { req with cmd := { req.cmd with retries := -1 } }

section blk

variable {host : MmcsdHost} {card : MmcsdCard} {bus bus' : Bus} {sector buf : BitVec 32}
  {blks fuel : Nat} {dir : DataDir} {err : Int}

/-- The data command is tried once. -/
theorem send_blkRequest :
    host.mmcsd_send_request bus (blkRequest host card sector buf blks dir) =
      host.request bus (issued host card sector buf blks dir) := by
  cases hstop : stopSent host blks dir <;>
    simp [MmcsdHost.mmcsd_send_request, MmcsdHost.sendLoop, MmcsdHost.attempt, blkRequest, issued,
      hstop]

theorem rt_mmcsd_req_blk_eq :
    rt_mmcsd_req_blk fuel host card bus sector buf blks dir =
      let k := bus.requests.length
      let req := issued host card sector buf blks dir
      let bus : Bus := ⟨bus.requests ++ [req], 0⟩
      let cmd := { req.cmd with err := host.transfer k }
      (if host.polls dir then host.pollStatus card fuel bus cmd else some (bus, cmd)).bind fun r =>
        if r.2.err ≠ 0 ∨ stopSent host blks dir ∧ host.stop k ≠ 0 then some (r.1, -RT_ERROR)
        else some (r.1, RT_EOK) := by
  rw [rt_mmcsd_req_blk, send_blkRequest]
  cases hspi : host.is_spi <;> cases dir <;> cases hstop : stopSent host blks _ <;>
    simp [MmcsdHost.request, MmcsdHost.polls, blkRequest, issued, hstop, hspi]

/-- What `rt_mmcsd_req_blk` returns tells what it has seen. -/
theorem rt_mmcsd_req_blk_post
    (h : rt_mmcsd_req_blk fuel host card bus sector buf blks dir = some (bus', err)) :
    bus'.requests = bus.requests ++ [issued host card sector buf blks dir] ∧
      (err ≠ 0 ↔ host.Seen dir blks bus.requests.length) ∧
      (host.polls dir → host.PollEnds bus.requests.length 0) := by
  rw [rt_mmcsd_req_blk_eq] at h
  dsimp only at h
  obtain ⟨⟨bus1, cmd⟩, hpolled, h⟩ := Option.bind_eq_some_iff.mp h
  have hcmd : bus1.requests = bus.requests ++ [issued host card sector buf blks dir] ∧
      (cmd.err ≠ 0 ↔
        if host.polls dir then host.PollFails bus.requests.length 0
        else host.transfer bus.requests.length ≠ 0) ∧
      (host.polls dir → host.PollEnds bus.requests.length 0) := by
    cases hpolls : host.polls dir with
    | true =>
      rw [if_pos hpolls] at hpolled
      obtain ⟨hrs, hfails, hends⟩ := MmcsdHost.pollStatus_post (k := bus.requests.length) (by simp) hpolled
      exact ⟨hrs, by simpa using hfails, fun _ => hends⟩
    | false =>
      rw [if_neg (by simp [hpolls])] at hpolled
      obtain ⟨rfl, rfl⟩ := Prod.mk.inj (Option.some.inj hpolled)
      exact ⟨rfl, by simp, fun h => by cases h⟩
  obtain ⟨hrs, hseen, hends⟩ := hcmd
  have hseen : cmd.err ≠ 0 ∨ stopSent host blks dir ∧ host.stop bus.requests.length ≠ 0 ↔
      host.Seen dir blks bus.requests.length := or_congr hseen Iff.rfl
  dsimp only at h
  split at h
  · next hs =>
    obtain ⟨rfl, rfl⟩ := Prod.mk.inj (Option.some.inj h)
    exact ⟨hrs, iff_of_true (by decide) (hseen.mp hs), hends⟩
  · next hs =>
    obtain ⟨rfl, rfl⟩ := Prod.mk.inj (Option.some.inj h)
    exact ⟨hrs, iff_of_false (by decide) fun hs' => hs (hseen.mpr hs'), hends⟩

variable (card sector buf blks) in
theorem rt_mmcsd_req_blk_total {rs : List MmcsdReq}
    (hends : host.polls dir → host.PollEnds rs.length 0) :
    ∃ n, ∀ bus, bus.requests = rs → ∀ fuel, n < fuel →
      ∃ r, rt_mmcsd_req_blk fuel host card bus sector buf blks dir = some r := by
  have hpolled : ∃ n, ∀ fuel, n < fuel → ∀ cmd, ∃ r,
      (if host.polls dir then
        host.pollStatus card fuel ⟨rs ++ [issued host card sector buf blks dir], 0⟩ cmd
      else some (⟨rs ++ [issued host card sector buf blks dir], 0⟩, cmd)) = some r := by
    split
    · next hpolls => exact MmcsdHost.pollStatus_total (by simp) (hends hpolls)
    · exact ⟨0, fun fuel _ cmd => ⟨_, rfl⟩⟩
  obtain ⟨n, hn⟩ := hpolled
  refine ⟨n, fun bus hbus fuel hfuel => ?_⟩
  subst hbus
  obtain ⟨r, hr⟩ := hn fuel hfuel
    { (issued host card sector buf blks dir).cmd with err := host.transfer bus.requests.length }
  rw [rt_mmcsd_req_blk_eq]
  dsimp only
  rw [hr, Option.bind_some]
  split
  · exact ⟨_, rfl⟩
  · exact ⟨_, rfl⟩

end blk

section loop

variable {dev : MmcsdBlkDevice} {dir : DataDir} {pos buffer ptr : BitVec 32}
  {size offset remain_size remain fuel : Nat} {bus bus' : Bus} {err : Int}

theorem address_add (card : MmcsdCard) (a b : BitVec 32) :
    card.address (a + b) = card.address a + card.address b := by
  unfold MmcsdCard.address
  split
  · rfl
  · exact BitVec.shiftLeft_add_distrib

theorem MmcsdBlkDevice.sectors_add (n blks : Nat) :
    dev.sectors pos buffer (n + blks) = dev.sectors pos buffer n ++
      (issued dev.host dev.card (dev.part_offset + pos + BitVec.ofNat 32 n)
        (buffer + BitVec.ofNat 32 (n * 2 ^ 9)) blks dir).covers dev.card := by
  have hblock : ∀ i, (n + i) * 2 ^ 9 = n * 2 ^ 9 + i * 2 ^ 9 := fun i => Nat.add_mul ..
  unfold MmcsdBlkDevice.sectors MmcsdReq.covers
  rw [List.range_add, List.map_append, List.map_map]
  congr 1
  refine List.map_congr_left fun i _ => congrArg₂ Prod.mk ?_ ?_
  · show dev.card.address _ = dev.card.address (dev.part_offset + pos + BitVec.ofNat 32 n) + _
    rw [BitVec.ofNat_add, ← BitVec.add_assoc, address_add]
  · show buffer + BitVec.ofNat 32 ((n + i) * 2 ^ 9) = buffer + BitVec.ofNat 32 (n * 2 ^ 9) + _
    rw [hblock, BitVec.ofNat_add, BitVec.add_assoc]

/-- The loop is about to send request `bus.requests.length`; none before it was seen to fail. -/
structure LoopAt (dev : MmcsdBlkDevice) (dir : DataDir) (pos buffer : BitVec 32)
    (size offset remain_size : Nat) (ptr : BitVec 32) (bus : Bus) : Prop where
  whole : offset + remain_size = size
  place : remain_size ≠ 0 → offset = bus.requests.length * dev.max_req_size
  rest : remain_size = 0 → size ≤ bus.requests.length * dev.max_req_size
  ptr : ptr = buffer + BitVec.ofNat 32 (offset * 2 ^ 9)
  covered : bus.requests.flatMap (·.covers dev.card) = dev.sectors pos buffer offset
  requests : ∀ req ∈ bus.requests, WellFormed dev dir req
  issued : ∀ j < bus.requests.length, j * dev.max_req_size < size
  unseen : ∀ j < bus.requests.length, ¬dev.host.Seen dir (dev.blks size j) j
  answered : ∀ j < bus.requests.length, dev.host.polls dir → dev.host.PollEnds j 0

/-- What the loop leaves behind. -/
structure Stopped (dev : MmcsdBlkDevice) (dir : DataDir) (pos buffer : BitVec 32) (size : Nat)
    (bus : Bus) (err : Int) (remain_size : Nat) : Prop where
  covered : ∃ n, n ≤ size ∧ bus.requests.flatMap (·.covers dev.card) = dev.sectors pos buffer n ∧
    (err = 0 → n = size)
  requests : ∀ req ∈ bus.requests, WellFormed dev dir req
  issued : ∀ j < bus.requests.length, j * dev.max_req_size < size
  unseen : ∀ j, j + 1 < bus.requests.length → ¬dev.host.Seen dir (dev.blks size j) j
  answered : ∀ j < bus.requests.length, dev.host.polls dir → dev.host.PollEnds j 0
  last : err = 0 ∧ remain_size = 0 ∧ size ≤ bus.requests.length * dev.max_req_size ∧
      (∀ j < bus.requests.length, ¬dev.host.Seen dir (dev.blks size j) j) ∨
    err ≠ 0 ∧ ∃ k, bus.requests.length = k + 1 ∧ dev.host.Seen dir (dev.blks size k) k

theorem LoopAt.blks_eq (h : LoopAt dev dir pos buffer size offset remain_size ptr bus)
    (hrest : remain_size ≠ 0) :
    (if remain_size > dev.max_req_size then dev.max_req_size else remain_size) =
      dev.blks size bus.requests.length := by
  have hwhole := h.whole
  have hplace := h.place hrest
  unfold MmcsdBlkDevice.blks
  split <;> omega

/-- The requests with one more, which is the next one of the transfer. -/
theorem LoopAt.snoc (h : LoopAt dev dir pos buffer size offset remain_size ptr bus)
    (hrest : remain_size ≠ 0) (hmax : 0 < dev.max_req_size)
    (hbus : bus'.requests = bus.requests ++ [Drivers.issued dev.host dev.card
      (dev.part_offset + pos + BitVec.ofNat 32 offset) ptr
      (dev.blks size bus.requests.length) dir]) :
    0 < dev.blks size bus.requests.length ∧
      bus'.requests.flatMap (·.covers dev.card) =
        dev.sectors pos buffer (offset + dev.blks size bus.requests.length) ∧
      (∀ req ∈ bus'.requests, WellFormed dev dir req) ∧
      (∀ j < bus'.requests.length, j * dev.max_req_size < size) := by
  have hwhole := h.whole
  have hplace := h.place hrest
  have hpos : 0 < dev.blks size bus.requests.length := by
    unfold MmcsdBlkDevice.blks
    omega
  refine ⟨hpos, ?_, fun req hreq => ?_, fun j hj => ?_⟩
  · rw [hbus, List.flatMap_append, h.covered, List.flatMap_singleton, h.ptr,
      MmcsdBlkDevice.sectors_add]
  · rw [hbus] at hreq
    rcases List.mem_append.mp hreq with hold | hnew
    · exact h.requests req hold
    · obtain rfl := List.mem_singleton.mp hnew
      exact ⟨_, rfl, rfl, rfl, hpos, Nat.min_le_left _ _, rfl⟩
  · rw [hbus, List.length_append, List.length_singleton] at hj
    rcases Nat.lt_succ_iff_lt_or_eq.mp hj with hlt | rfl
    · exact h.issued j hlt
    · omega

/-- A request that is not seen to fail leads to the next one. -/
theorem LoopAt.next (h : LoopAt dev dir pos buffer size offset remain_size ptr bus)
    (hrest : remain_size ≠ 0) (hmax : 0 < dev.max_req_size)
    (hbus : bus'.requests = bus.requests ++ [Drivers.issued dev.host dev.card
      (dev.part_offset + pos + BitVec.ofNat 32 offset) ptr
      (dev.blks size bus.requests.length) dir])
    (hunseen : ¬dev.host.Seen dir (dev.blks size bus.requests.length) bus.requests.length)
    (hends : dev.host.polls dir → dev.host.PollEnds bus.requests.length 0) :
    LoopAt dev dir pos buffer size (offset + dev.blks size bus.requests.length)
      (remain_size - dev.blks size bus.requests.length)
      (ptr + BitVec.ofNat 32 (dev.blks size bus.requests.length * 2 ^ 9)) bus' := by
  obtain ⟨hpos, hcovered, hrequests, hissued⟩ := h.snoc hrest hmax hbus
  have hwhole := h.whole
  have hplace := h.place hrest
  have hlen : bus'.requests.length = bus.requests.length + 1 := by simp [hbus]
  have hnext : (bus.requests.length + 1) * dev.max_req_size =
      bus.requests.length * dev.max_req_size + dev.max_req_size := Nat.succ_mul ..
  have hblks : dev.blks size bus.requests.length = min dev.max_req_size remain_size := by
    unfold MmcsdBlkDevice.blks
    omega
  refine ⟨by omega, fun hleft => ?_, fun hnone => ?_, ?_, hcovered, hrequests, hissued,
    fun j hj => ?_, fun j hj => ?_⟩
  · rw [hlen]
    omega
  · rw [hlen]
    omega
  · rw [h.ptr, Nat.add_mul, BitVec.ofNat_add, BitVec.add_assoc]
  · rcases Nat.lt_succ_iff_lt_or_eq.mp (hlen ▸ hj) with hlt | rfl
    · exact h.unseen j hlt
    · exact hunseen
  · rcases Nat.lt_succ_iff_lt_or_eq.mp (hlen ▸ hj) with hlt | rfl
    · exact h.answered j hlt
    · exact hends

theorem blkLoop_post (hmax : 0 < dev.max_req_size)
    (h : LoopAt dev dir pos buffer size offset remain_size ptr bus)
    (hrun : blkLoop dev dir pos fuel offset remain_size ptr bus = some (bus', err, remain)) :
    Stopped dev dir pos buffer size bus' err remain := by
  induction fuel generalizing offset remain_size ptr bus with
  | zero => cases hrun
  | succ fuel ih =>
    rw [blkLoop] at hrun
    split at hrun
    · next hnone =>
      obtain ⟨rfl, heq⟩ := Prod.mk.inj (Option.some.inj hrun)
      obtain ⟨rfl, rfl⟩ := Prod.mk.inj heq
      have hwhole := h.whole
      exact ⟨⟨offset, by omega, h.covered, fun _ => by omega⟩, h.requests, h.issued,
        fun j hj => h.unseen j (by omega), h.answered, Or.inl ⟨rfl, hnone, h.rest hnone, h.unseen⟩⟩
    · next hrest =>
      dsimp only at hrun
      rw [h.blks_eq hrest] at hrun
      obtain ⟨⟨bus1, err1⟩, hblk, hrun⟩ := Option.bind_eq_some_iff.mp hrun
      obtain ⟨hbus, hseen, hends⟩ := rt_mmcsd_req_blk_post hblk
      dsimp only at hrun
      split at hrun
      · next herr =>
        obtain ⟨rfl, heq⟩ := Prod.mk.inj (Option.some.inj hrun)
        obtain ⟨rfl, rfl⟩ := Prod.mk.inj heq
        obtain ⟨hpos, hcovered, hrequests, hissued⟩ := h.snoc hrest hmax hbus
        have hwhole := h.whole
        have hplace := h.place hrest
        have hlen : bus1.requests.length = bus.requests.length + 1 := by simp [hbus]
        have hblks : dev.blks size bus.requests.length ≤ size - offset := by
          unfold MmcsdBlkDevice.blks
          omega
        refine ⟨⟨_, by omega, hcovered, fun h0 => absurd h0 herr⟩, hrequests, hissued,
          fun j hj => h.unseen j (by omega), fun j hj => ?_,
          Or.inr ⟨herr, bus.requests.length, hlen, hseen.mp herr⟩⟩
        rcases Nat.lt_succ_iff_lt_or_eq.mp (hlen ▸ hj) with hlt | rfl
        · exact h.answered j hlt
        · exact hends
      · next herr => exact ih (h.next hrest hmax hbus (fun hs => herr (hseen.mpr hs)) hends) hrun

variable (pos buffer) in
/-- The bound depends on the requests sent so far only. -/
theorem blkLoop_total (hmax : 0 < dev.max_req_size)
    (hanswered : ∀ k, dev.Reached dir size k → dev.host.polls dir → dev.host.PollEnds k 0) :
    ∀ (remain_size offset : Nat) (ptr : BitVec 32) (rs : List MmcsdReq),
      ∃ n, ∀ bus, bus.requests = rs → LoopAt dev dir pos buffer size offset remain_size ptr bus →
        ∀ fuel, n < fuel → ∃ r, blkLoop dev dir pos fuel offset remain_size ptr bus = some r := by
  intro remain_size
  induction remain_size using Nat.strongRecOn with
  | ind remain_size ih =>
    intro offset ptr rs
    by_cases hat : ∃ bus, bus.requests = rs ∧ LoopAt dev dir pos buffer size offset remain_size ptr bus
    · obtain ⟨bus0, hrs, h⟩ := hat
      by_cases hrest : remain_size = 0
      · refine ⟨0, fun bus _ _ fuel hfuel => ?_⟩
        obtain ⟨fuel, rfl⟩ := Nat.exists_eq_succ_of_ne_zero (Nat.ne_of_gt hfuel)
        exact ⟨_, by rw [blkLoop, if_pos hrest]⟩
      · have hwhole := h.whole
        have hplace := h.place hrest
        have hreached : dev.Reached dir size rs.length := hrs ▸ ⟨by omega, h.unseen⟩
        obtain ⟨n, hn⟩ := rt_mmcsd_req_blk_total dev.card
          (dev.part_offset + pos + BitVec.ofNat 32 offset) ptr (dev.blks size rs.length)
          (hanswered _ hreached)
        have hpos : 0 < dev.blks size rs.length := by
          have := hreached.1
          unfold MmcsdBlkDevice.blks
          omega
        obtain ⟨m, hm⟩ := ih (remain_size - dev.blks size rs.length) (by omega)
          (offset + dev.blks size rs.length)
          (ptr + BitVec.ofNat 32 (dev.blks size rs.length * 2 ^ 9))
          (rs ++ [Drivers.issued dev.host dev.card (dev.part_offset + pos + BitVec.ofNat 32 offset)
            ptr (dev.blks size rs.length) dir])
        refine ⟨max n m + 1, fun bus hbus h fuel hfuel => ?_⟩
        subst hbus
        obtain ⟨fuel, rfl⟩ : ∃ f, fuel = f + 1 := ⟨fuel - 1, by omega⟩
        obtain ⟨⟨bus1, err1⟩, hblk⟩ := hn bus rfl fuel (by omega)
        obtain ⟨hbus1, hseen, hends⟩ := rt_mmcsd_req_blk_post hblk
        rw [blkLoop, if_neg hrest]
        dsimp only
        rw [h.blks_eq hrest, hblk]
        by_cases herr : err1 = 0
        · have hnext := h.next hrest hmax hbus1 (fun hs => hseen.mpr hs herr) hends
          obtain ⟨r, hr⟩ := hm bus1 hbus1 hnext fuel (by omega)
          exact ⟨r, by simpa [herr] using hr⟩
        · exact ⟨(bus1, err1, remain_size), by simp [herr]⟩
    · exact ⟨0, fun bus hbus h => absurd ⟨bus, hbus, h⟩ hat⟩

theorem LoopAt.start :
    LoopAt dev dir pos buffer size 0 size buffer ⟨[], 0⟩ where
  whole := by omega
  place _ := by simp
  rest h := by simp [h]
  ptr := by simp
  covered := rfl
  requests _ h := by cases h
  issued _ h := absurd h (Nat.not_lt_zero _)
  unseen _ h := absurd h (Nat.not_lt_zero _)
  answered _ h := absurd h (Nat.not_lt_zero _)

/-- A request is reached once none before it was seen to fail. -/
theorem Stopped.reached (h : Stopped dev dir pos buffer size bus err remain) {k : Nat}
    (hk : k < bus.requests.length) : dev.Reached dir size k :=
  ⟨h.issued k hk, fun j hj => h.unseen j (by omega)⟩

theorem Stopped.sent (h : Stopped dev dir pos buffer size bus err remain) {k : Nat}
    (hk : dev.Reached dir size k) : k < bus.requests.length := by
  by_contra hle
  rcases h.last with ⟨-, -, hall, -⟩ | ⟨-, last, hlen, hseen⟩
  · have := Nat.mul_le_mul_right dev.max_req_size (Nat.le_of_not_lt hle)
    have := hk.1
    omega
  · exact hk.2 last (by omega) hseen

/-- Without a failure there is none to see. -/
theorem MmcsdHost.seen_error {host : MmcsdHost} {blks k : Nat} (h : host.Seen dir blks k) :
    host.transfer k ≠ 0 ∨ host.stop k ≠ 0 ∨ ∃ i, (host.status k i).err ≠ 0 := by
  rcases h with h | ⟨-, h⟩
  · split at h
    · obtain ⟨m, -, hfail, -⟩ := h
      exact Or.inr (Or.inr ⟨m, hfail 0 (by omega)⟩)
    · exact Or.inl h
  · exact Or.inr (Or.inl h)

theorem Stopped.contract (h : Stopped dev dir pos buffer size bus err remain)
    (hseen : dev.ErrorsSeen dir size) :
    BlkContract dev dir pos buffer size
      (if err ≠ 0 then ⟨0, some (- EIO), bus⟩ else ⟨size - remain, none, bus⟩) := by
  have hfailed : ∀ k < bus.requests.length, dev.host.transfer k ≠ 0 →
      dev.host.Seen dir (dev.blks size k) k := fun k hk => (hseen k (h.reached hk)).2
  obtain ⟨n, hn, hcovered, hall⟩ := h.covered
  rcases h.last with ⟨herr, hrest, -, hunseen⟩ | ⟨herr, last, hlen, hlast⟩
  · rw [if_neg (not_not.mpr herr)]
    have hok : ∀ k < bus.requests.length, dev.host.transfer k = 0 := fun k hk => by
      by_contra hne
      exact hunseen k hk (hfailed k hk hne)
    exact ⟨⟨n, hn, hcovered, fun _ => hall herr⟩, h.requests,
      Or.inl ⟨rfl, by simp [hrest], hok⟩, fun k hk hne => absurd (hok k hk) hne, fun _ => rfl⟩
  · rw [if_pos herr]
    refine ⟨⟨n, hn, hcovered, fun h => by cases h⟩, h.requests, Or.inr ⟨rfl, rfl⟩,
      fun k hk hne => ⟨rfl, ?_⟩, fun hok => ?_⟩
    · have hnot : ¬k + 1 < bus.requests.length := fun hlt => h.unseen k hlt (hfailed k hk hne)
      have hk : k < bus.requests.length := hk
      show bus.requests.length = k + 1
      omega
    · obtain ⟨htransfer, hstop, hstatus⟩ := hok last
      rcases MmcsdHost.seen_error hlast with h | h | ⟨i, h⟩
      · exact absurd htransfer h
      · exact absurd hstop h
      · exact absurd (hstatus i) h

/-- A contract that is kept names the request that failed. -/
theorem Stopped.errorsSeen (h : Stopped dev dir pos buffer size bus err remain)
    (hcontract : BlkContract dev dir pos buffer size
      (if err ≠ 0 then ⟨0, some (- EIO), bus⟩ else ⟨size - remain, none, bus⟩)) :
    dev.ErrorsSeen dir size := by
  intro k hk
  have hlt := h.sent hk
  refine ⟨h.answered k hlt, fun hne => ?_⟩
  have hreported := hcontract.reported
  rcases h.last with ⟨herr, -⟩ | ⟨herr, last, hlen, hlast⟩
  · rw [if_neg (not_not.mpr herr)] at hreported
    cases (hreported k hlt hne).1
  · rw [if_pos herr] at hreported
    have hlen' : bus.requests.length = k + 1 := (hreported k hlt hne).2
    obtain rfl : last = k := by omega
    exact hlast

theorem blkTransfer_eq {buffer : BitVec 32} :
    blkTransfer fuel dev dir pos buffer size bus =
      (blkLoop dev dir pos fuel 0 size buffer bus).map fun r =>
        if r.2.1 ≠ 0 then ⟨0, some (- EIO), r.1⟩ else ⟨size - r.2.2, none, r.1⟩ := by
  unfold blkTransfer
  cases blkLoop dev dir pos fuel 0 size buffer bus with
  | none => rfl
  | some r =>
    dsimp only [Option.bind_eq_bind, Option.bind_some, Option.map_some]
    split <;> rfl

/-- A transfer keeps its contract if and only if every failure on its way is seen. -/
theorem blkTransfer_contract (hmax : 0 < dev.max_req_size) :
    (∃ n, Returns (fun fuel => blkTransfer fuel dev dir pos buffer size ⟨[], 0⟩) n
      (BlkContract dev dir pos buffer size)) ↔ dev.ErrorsSeen dir size := by
  simp only [blkTransfer_eq]
  constructor
  · rintro ⟨n, h⟩
    obtain ⟨r, hr⟩ := h.total (Nat.lt_succ_self n)
    have hcontract := h.post hr
    obtain ⟨⟨bus, err, remain⟩, hloop, rfl⟩ := Option.map_eq_some_iff.mp hr
    exact (blkLoop_post hmax .start hloop).errorsSeen hcontract
  · intro hseen
    obtain ⟨n, hn⟩ := blkLoop_total pos buffer hmax (fun k hk => (hseen k hk).1) size 0 buffer []
    refine ⟨n, fun {fuel r} hr => ?_, fun {fuel} hfuel => ?_⟩
    · obtain ⟨⟨bus, err, remain⟩, hloop, rfl⟩ := Option.map_eq_some_iff.mp hr
      exact (blkLoop_post hmax .start hloop).contract hseen
    · obtain ⟨r, hr⟩ := hn ⟨[], 0⟩ rfl .start fuel hfuel
      exact ⟨_, Option.map_eq_some_iff.mpr ⟨r, hr, rfl⟩⟩

end loop

theorem MmcsdBlkDevice.errorsSeen_read (dev : MmcsdBlkDevice) (size : Nat) :
    dev.ErrorsSeen .read size := by
  intro k _
  have hpolls : dev.host.polls .read = false := by simp [MmcsdHost.polls]
  exact ⟨fun h => by simp [hpolls] at h, fun h => Or.inl (by simpa [hpolls] using h)⟩

theorem mmcsd_errors_reported (dev : MmcsdBlkDevice) (pos buffer : BitVec 32) (size : Nat)
    (hmax : 1 ≤ dev.max_req_size) :
    ((∃ n, Returns (fun fuel => rt_mmcsd_write fuel dev pos buffer size ⟨[], 0⟩) n
        (BlkContract dev .write pos buffer size)) ↔ dev.ErrorsSeen .write size) ∧
      ∃ n, Returns (fun fuel => rt_mmcsd_read fuel dev pos buffer size ⟨[], 0⟩) n
        (BlkContract dev .read pos buffer size) :=
  ⟨blkTransfer_contract hmax, (blkTransfer_contract hmax).mpr (dev.errorsSeen_read size)⟩

/-- A card whose first write fails and which is ready afterwards. -/
def failingDev : MmcsdBlkDevice where
  card := ⟨true, 1⟩
  host := ⟨false, fun k => if k = 0 then -RT_ERROR else 0, fun _ => 0, fun _ _ => ⟨0, 0x900⟩⟩
  part_offset := 0
  max_req_size := 8

theorem mmcsd_errors_reported_failing :
    ((∃ n, Returns (fun fuel => rt_mmcsd_write fuel failingDev 0 0 16 ⟨[], 0⟩) n
        (BlkContract failingDev .write 0 0 16)) ↔ failingDev.ErrorsSeen .write 16) ∧
      ∃ n, Returns (fun fuel => rt_mmcsd_read fuel failingDev 0 0 16 ⟨[], 0⟩) n
        (BlkContract failingDev .read 0 0 16) :=
  mmcsd_errors_reported failingDev 0 0 16 (by decide)

/-- The write of two requests returns its full size although its first data command failed. -/
theorem write_error_lost :
    (∃ r, rt_mmcsd_write 4 failingDev 0 0 16 ⟨[], 0⟩ = some r ∧ r.ret = 16 ∧ r.errno = none) ∧
      failingDev.host.transfer 0 = -RT_ERROR ∧
      ¬∃ n, Returns (fun fuel => rt_mmcsd_write fuel failingDev 0 0 16 ⟨[], 0⟩) n
        (BlkContract failingDev .write 0 0 16) := by
  have hrun : ∃ r, rt_mmcsd_write 4 failingDev 0 0 16 ⟨[], 0⟩ = some r ∧ r.ret = 16 ∧
      r.errno = none ∧ 0 < r.bus.requests.length := by
    decide +kernel
  obtain ⟨r, hr, hret, herrno, hlen⟩ := hrun
  refine ⟨⟨r, hr, hret, herrno⟩, rfl, ?_⟩
  rintro ⟨n, h⟩
  obtain ⟨hsome, -⟩ := (h.post hr).reported 0 hlen (by decide)
  rw [herrno] at hsome
  cases hsome

end Ab32Vg1.Drivers
