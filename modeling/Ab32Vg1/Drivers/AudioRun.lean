import Ab32Vg1.Drivers.Audio
import Mathlib.Data.List.Forall2

/-! Every frame of the replay stream carries the next bytes that were written. -/

namespace Ab32Vg1.Drivers

open Kernel ProofKit

namespace AudioReplay

variable {r r' : AudioReplay} {item : DataItem} {rest : List DataItem} {part : List UInt8}
  {start index remain_bytes n : Nat}

structure ItemsOk (r : AudioReplay) : Prop where
  size : ∀ item ∈ r.queue, 0 < item.data_size ∧ item.data_size ≤ RT_AUDIO_REPLAY_MP_BLOCK_SIZE
  read : ∀ item rest, r.queue = item :: rest → r.read_index < item.data_size
  empty : r.queue = [] → r.read_index = 0

/-- Every copy into the buffer stays inside it. -/
def CopiesOk (r : AudioReplay) : Prop := ∀ p ∈ r.copied, p.1 + p.2 ≤ r.buf_info.total_size

/-- The fields that sending a frame leaves alone. -/
structure SameWriter (r r' : AudioReplay) : Prop where
  buf_info : r'.buf_info = r.buf_info
  write_data : r'.write_data = r.write_data
  write_index : r'.write_index = r.write_index
  activated : r'.activated = r.activated

theorem SameWriter.refl (r : AudioReplay) : SameWriter r r := ⟨rfl, rfl, rfl, rfl⟩

theorem SameWriter.trans {r1 r2 r3 : AudioReplay} (h : SameWriter r1 r2) (h' : SameWriter r2 r3) :
    SameWriter r1 r3 :=
  ⟨h'.buf_info.trans h.buf_info, h'.write_data.trans h.write_data,
    h'.write_index.trans h.write_index, h'.activated.trans h.activated⟩

@[simp] theorem bytes_length : item.bytes.length = item.data_size := by
  simp [DataItem.bytes]

theorem queued_length : r.queued.length = (r.queue.map DataItem.data_size).sum - r.read_index := by
  simp [queued, List.length_flatMap]

theorem queued_cons (h : r.queue = item :: rest) (hle : r.read_index ≤ item.data_size) :
    r.queued = item.data_ptr.range r.read_index (item.data_size - r.read_index) ++
      rest.flatMap DataItem.bytes := by
  unfold queued
  rw [h, List.flatMap_cons, List.drop_append_of_le_length (by simpa using hle), DataItem.bytes,
    Bytes.drop_range hle, Nat.zero_add]

/-- The bytes that a copy takes. -/
theorem queued_take (h : r.queue = item :: rest) (hle : r.read_index + n ≤ item.data_size) :
    r.queued = item.data_ptr.range r.read_index n ++
      (item.data_ptr.range (r.read_index + n) (item.data_size - (r.read_index + n)) ++
        rest.flatMap DataItem.bytes) := by
  rw [queued_cons h (by omega), Bytes.range_split (show n ≤ item.data_size - r.read_index by omega),
    List.append_assoc, Nat.sub_sub]

/-- In the middle of a frame that begins at `start`: `part` is there already. -/
structure SendAt (r : AudioReplay) (start index remain_bytes : Nat) (part : List UInt8) : Prop where
  items : r.ItemsOk
  aligned : r.buf_info.block_size ∣ start ∧ start < r.buf_info.total_size
  length : part.length = index
  index_le : index ≤ r.buf_info.block_size
  pos : r.pos = (start + index) % r.buf_info.total_size
  buffer : r.buffer.range start r.buf_info.block_size =
    part ++ List.replicate (r.buf_info.block_size - part.length) 0
  enough : r.buf_info.block_size - index ≤ r.queued.length ∨
    (r.queue.length ≤ 1 ∧ index = 0 ∧ remain_bytes = 0) ∨ (r.queue = [] ∧ remain_bytes = index)
  copied : r.CopiesOk

/-- A frame that begins at `start` is filled from the queue. -/
structure Filled (r : AudioReplay) (start : Nat) (part : List UInt8) (out : AudioReplay × Bool) :
    Prop where
  items : out.1.ItemsOk
  pos : out.1.pos = (start + r.buf_info.block_size) % r.buf_info.total_size
  more : ∃ more, more ++ out.1.queued = r.queued ∧
    (part ++ more).length ≤ r.buf_info.block_size ∧
    out.1.buffer.range start r.buf_info.block_size =
      part ++ more ++ List.replicate (r.buf_info.block_size - (part ++ more).length) 0 ∧
    ((part ++ more).length < r.buf_info.block_size → out.2 = true)
  copied : out.1.CopiesOk
  drained : r.queue = [] → out.1.queue = []
  cmp : out.1.cmp = true → r.cmp = true ∨ out.1.queue = []
  writer : SameWriter r out.1

theorem block_le (h : r.buf_info.block_size ∣ start ∧ start < r.buf_info.total_size) :
    start + r.buf_info.block_size ≤ r.buf_info.total_size := by
  obtain ⟨⟨k, rfl⟩, hlt⟩ := h
  obtain ⟨n, hn⟩ := r.buf_info.dvd
  rw [hn] at hlt ⊢
  have hk : k < n := Nat.lt_of_mul_lt_mul_left hlt
  calc r.buf_info.block_size * k + r.buf_info.block_size
      = r.buf_info.block_size * (k + 1) := (Nat.mul_succ _ _).symm
    _ ≤ r.buf_info.block_size * n := Nat.mul_le_mul_left _ hk

/-- Before the frame is full its position has not wrapped. -/
theorem SendAt.pos_eq (h : SendAt r start index remain_bytes part)
    (hlt : index < r.buf_info.block_size) : r.pos = start + index := by
  have hle := block_le h.aligned
  rw [h.pos, Nat.mod_eq_of_lt (by omega)]

/-- The frame is full. -/
theorem SendAt.full (h : SendAt r start index remain_bytes part)
    (hfull : index = r.buf_info.block_size) :
    Returns (fun fuel => sendLoop fuel r index remain_bytes) 0 (Filled r start part) := by
  refine Returns.stop rfl (a := (r, false)) (fun k => ?_) ?_
  · show sendLoop (k + 1) r index remain_bytes = _
    rw [sendLoop, if_neg (by omega)]
  · have hlen : part.length = r.buf_info.block_size := h.length.trans hfull
    refine ⟨h.items, by rw [h.pos, hfull], ⟨[], rfl, ?_⟩, h.copied, id, Or.inl, .refl r⟩
    simp only [List.append_nil]
    exact ⟨hlen.le, h.buffer, fun hlt => by omega⟩

theorem SendAt.underRun (h : SendAt r start index remain_bytes part) (hq : r.queue = [])
    (hlt : index < r.buf_info.block_size) : Filled r start part (r.underRun remain_bytes, true) := by
  have hqueued : r.queued = [] := by simp [queued, hq]
  have hremain : remain_bytes = index := by
    rcases h.enough with henough | ⟨-, h0, h1⟩ | ⟨-, h1⟩
    · rw [hqueued, List.length_nil] at henough
      omega
    · omega
    · exact h1
  have htotal := r.buf_info.total_size_lt
  have hle := block_le h.aligned
  have hback : sub32 r.pos remain_bytes = start := by
    rw [h.pos_eq hlt, hremain, sub32]
    omega
  refine ⟨⟨h.items.size, fun item rest hc => ?_, fun _ => rfl⟩, ?_, ⟨[], ?_, ?_⟩, h.copied, fun _ => hq,
    fun _ => Or.inr hq, ⟨rfl, rfl, rfl, rfl⟩⟩
  · have hcons : r.queue = item :: rest := hc
    rw [hq] at hcons
    cases hcons
  · show (sub32 r.pos remain_bytes + r.buf_info.block_size) % 2 ^ 32 % r.buf_info.total_size = _
    rw [hback, Nat.mod_eq_of_lt (show start + r.buf_info.block_size < 2 ^ 32 by omega)]
  · simp [queued, AudioReplay.underRun, hq]
  · simp only [List.append_nil]
    exact ⟨by rw [h.length]; exact h.index_le, h.buffer, fun _ => trivial⟩

/-- A copy from the first item. -/
theorem SendAt.copyItem (h : SendAt r start index remain_bytes part) (hq : r.queue = item :: rest)
    (hlt : index < r.buf_info.block_size) (hn : index + n ≤ r.buf_info.block_size)
    (hitem : r.read_index + n ≤ item.data_size) :
    (r.copyItem item n).read_index = r.read_index + n ∧
      (r.copyItem item n).pos = (start + (index + n)) % r.buf_info.total_size ∧
      (r.copyItem item n).buffer.range start r.buf_info.block_size =
        part ++ item.data_ptr.range r.read_index n ++
          List.replicate (r.buf_info.block_size - (index + n)) 0 ∧
      (r.copyItem item n).CopiesOk := by
  have hsize := (h.items.size item (by rw [hq]; exact List.mem_cons_self)).2
  unfold RT_AUDIO_REPLAY_MP_BLOCK_SIZE at hsize
  have htotal := r.buf_info.total_size_lt
  have hle := block_le h.aligned
  have hpos := h.pos_eq hlt
  refine ⟨?_, ?_, ?_, fun p hp => ?_⟩
  · exact Nat.mod_eq_of_lt (by omega)
  · show (r.pos + n) % 2 ^ 32 % r.buf_info.total_size = _
    rw [hpos, Nat.mod_eq_of_lt (show start + index + n < 2 ^ 32 by omega), Nat.add_assoc]
  · show (r.buffer.blit r.pos item.data_ptr r.read_index n).range start r.buf_info.block_size = _
    have hafter := Bytes.range_blit_after (k := n) item.data_ptr r.read_index h.buffer
      (by rw [h.length]; exact hn)
    rwa [h.length, ← hpos] at hafter
  · rcases List.mem_cons.mp hp with rfl | hp
    · show r.pos + n ≤ r.buf_info.total_size
      omega
    · exact h.copied p hp

/-- Taking a part of the stream before what the rest of the frame takes. -/
theorem Filled.before {chunk : List UInt8} {r1 : AudioReplay} {out : AudioReplay × Bool}
    (h : Filled r1 start (part ++ chunk) out) (hqueued : chunk ++ r1.queued = r.queued)
    (hdrained : r.queue ≠ []) (hcmp : r1.cmp = r.cmp) (hsame : SameWriter r r1) :
    Filled r start part out := by
  obtain ⟨more, hmore, hrest⟩ := h.more
  have hinfo := hsame.buf_info
  have hpos := h.pos
  rw [hinfo, List.append_assoc] at hrest
  rw [hinfo] at hpos
  refine ⟨h.items, hpos, ⟨chunk ++ more, ?_, hrest⟩, h.copied, fun hq => absurd hq hdrained, ?_,
    hsame.trans h.writer⟩
  · rw [List.append_assoc, hmore, hqueued]
  · exact hcmp ▸ h.cmp

variable (remain_bytes) in
/-- The turn of the loop that copies from the first item. -/
theorem sendLoop_item (hitems : r.ItemsOk) (hq : r.queue = item :: rest)
    (hlt : index < r.buf_info.block_size) (hblock : r.buf_info.block_size < 65536) (k : Nat) :
    let n := min (r.buf_info.block_size - index) (item.data_size - r.read_index)
    sendLoop (k + 1) r index remain_bytes =
      if r.read_index + n = item.data_size then
        sendLoop k ((r.copyItem item n).popItem rest) (index + n) n
      else sendLoop k (r.copyItem item n) (index + n) n := by
  intro n
  have hread := hitems.read item rest hq
  have hsize := (hitems.size item (by rw [hq]; exact List.mem_cons_self)).2
  unfold RT_AUDIO_REPLAY_MP_BLOCK_SIZE at hsize
  have hsub : sub32 item.data_size r.read_index = item.data_size - r.read_index := by
    unfold sub32
    omega
  have hn : min (r.buf_info.block_size - index) (sub32 item.data_size r.read_index) % 65536 = n := by
    rw [hsub]
    exact Nat.mod_eq_of_lt (by omega)
  have hindex : (index + n) % 65536 = index + n := Nat.mod_eq_of_lt (by omega)
  have hcopied : (r.copyItem item n).read_index = r.read_index + n := Nat.mod_eq_of_lt (by omega)
  rw [sendLoop, if_pos hlt, hq]
  simp only [hn, hindex, hcopied]

/-- The loop fills the frame, with at most one turn for each item and one more. -/
theorem sendLoop_returns {start : Nat} : ∀ (queue : List DataItem) {r : AudioReplay}
    {index remain_bytes : Nat} {part : List UInt8}, r.queue = queue →
      SendAt r start index remain_bytes part →
      Returns (fun fuel => sendLoop fuel r index remain_bytes) (queue.length + 1)
        (Filled r start part) := by
  intro queue
  induction queue with
  | nil =>
    intro r index remain_bytes part hq h
    by_cases hfull : index = r.buf_info.block_size
    · exact (h.full hfull).more (Nat.zero_le _)
    · have hlt : index < r.buf_info.block_size := Nat.lt_of_le_of_ne h.index_le hfull
      refine Returns.stop rfl (fun k => ?_) (h.underRun hq hlt)
      show sendLoop (k + 1) r index remain_bytes = _
      rw [sendLoop, if_pos hlt, hq]
  | cons item rest ih =>
    intro r index remain_bytes part hq h
    by_cases hfull : index = r.buf_info.block_size
    · exact (h.full hfull).more (Nat.zero_le _)
    have hlt : index < r.buf_info.block_size := Nat.lt_of_le_of_ne h.index_le hfull
    have hblock : r.buf_info.block_size < 65536 :=
      Nat.lt_of_le_of_lt (by have := block_le h.aligned; omega) r.buf_info.total_size_lt
    have hread := h.items.read item rest hq
    have hturn := sendLoop_item remain_bytes h.items hq hlt hblock
    generalize hn : min (r.buf_info.block_size - index) (item.data_size - r.read_index) = n at hturn
    obtain ⟨hindex, hpos, hbuffer, hcopied⟩ := h.copyItem hq hlt (n := n) (by omega) (by omega)
    have htake := queued_take hq (n := n) (by omega)
    have hlength : (part ++ item.data_ptr.range r.read_index n).length = index + n := by
      simp [h.length]
    have hsame : SameWriter r (r.copyItem item n) := ⟨rfl, rfl, rfl, rfl⟩
    have hne : r.queue ≠ [] := by rw [hq]; exact List.cons_ne_nil _ _
    by_cases hused : r.read_index + n = item.data_size
    · -- the item is used up
      have hrest : item.data_ptr.range r.read_index n ++ rest.flatMap DataItem.bytes = r.queued := by
        rw [htake, hused, Nat.sub_self, Bytes.range_zero, List.nil_append]
      have hpop : ((r.copyItem item n).popItem rest).queued = rest.flatMap DataItem.bytes := rfl
      refine Returns.step rfl (fun k => (hturn k).trans (if_pos hused)) ?_
      refine (ih (r := (r.copyItem item n).popItem rest) rfl ⟨⟨fun i hi => ?_, fun i is hi => ?_, fun _ => rfl⟩, h.aligned, hlength,
        ?_, hpos, ?_, ?_, hcopied⟩).weaken fun out hout => ?_
      · exact h.items.size i (by rw [hq]; exact List.mem_cons_of_mem _ hi)
      · have hmem : i ∈ r.queue := by
          rw [hq, show rest = i :: is from hi]
          exact List.mem_cons_of_mem _ List.mem_cons_self
        exact (h.items.size i hmem).1
      · show index + n ≤ r.buf_info.block_size
        omega
      · rw [hlength]
        exact hbuffer
      · rw [hpop]
        show r.buf_info.block_size - (index + n) ≤ _ ∨ rest.length ≤ 1 ∧ _ ∨ rest = [] ∧ n = index + n
        have hlen := congrArg List.length hrest
        rw [List.length_append, Bytes.length_range] at hlen
        rcases h.enough with henough | ⟨hone, h0, -⟩ | ⟨hnil, -⟩
        · exact Or.inl (by omega)
        · rw [hq, List.length_cons] at hone
          exact Or.inr (Or.inr ⟨List.eq_nil_of_length_eq_zero (by omega), by omega⟩)
        · exact absurd hnil hne
      · exact hout.before (hpop ▸ hrest) hne rfl ⟨rfl, rfl, rfl, rfl⟩
    · -- the frame is full
      have hdone : index + n = r.buf_info.block_size := by omega
      have hrest : item.data_ptr.range r.read_index n ++ (r.copyItem item n).queued = r.queued := by
        rw [queued_cons (r := r.copyItem item n) hq (by omega), hindex, htake]
      refine Returns.more (Returns.step rfl (fun k => (hturn k).trans (if_neg hused)) ?_)
        (show 1 ≤ (item :: rest).length + 1 by simp)
      refine (SendAt.full (r := r.copyItem item n) ⟨⟨h.items.size, fun i is hi => ?_, fun hnil => absurd hnil hne⟩, h.aligned,
        hlength, hdone.le, hpos, ?_, Or.inl ?_, hcopied⟩ hdone).weaken fun out hout =>
          hout.before hrest hne rfl hsame
      · obtain ⟨rfl, -⟩ := List.cons.inj (hq.symm.trans hi)
        rw [hindex]
        omega
      · rw [hlength]
        exact hbuffer
      · show r.buf_info.block_size - (index + n) ≤ _
        omega

theorem clearFrame_sendAt (hitems : r.ItemsOk) (hcopied : r.CopiesOk) (hfits : r.Fits)
    (hpos : r.buf_info.block_size ∣ r.pos ∧ r.pos < r.buf_info.total_size) :
    SendAt r.clearFrame r.pos 0 0 [] := by
  refine ⟨⟨hitems.size, hitems.read, hitems.empty⟩, hpos, rfl, Nat.zero_le _, ?_, ?_, ?_, fun p hp => ?_⟩
  · exact (Nat.mod_eq_of_lt hpos.2).symm
  · exact Bytes.range_fill 0
  · rcases hfits with henough | hone
    · rw [← queued_length] at henough
      exact Or.inl henough
    · exact Or.inr (Or.inl ⟨hone, rfl, rfl⟩)
  · rcases List.mem_cons.mp hp with rfl | hp
    · exact block_le hpos
    · exact hcopied p hp

theorem fillFrame_returns (hitems : r.ItemsOk) (hcopied : r.CopiesOk) (hfits : r.Fits)
    (hpos : r.buf_info.block_size ∣ r.pos ∧ r.pos < r.buf_info.total_size) :
    Returns (fun fuel => fillFrame fuel r) (r.queue.length + 1) (Filled r r.pos []) := by
  have hat := clearFrame_sendAt hitems hcopied hfits hpos
  cases hq : r.queue with
  | nil =>
    have hrun : (fun fuel => fillFrame fuel r) = fun _ => some (r.sendZeros, true) := by
      funext fuel
      rw [fillFrame, hq]
    rw [hrun]
    have htotal := r.buf_info.total_size_lt
    have hle := block_le hpos
    refine Returns.const ⟨⟨hitems.size, hitems.read, hitems.empty⟩, ?_, ⟨[], rfl, Nat.zero_le _, ?_,
      fun _ => rfl⟩, hat.copied, fun _ => hq, fun _ => Or.inr hq, ⟨rfl, rfl, rfl, rfl⟩⟩
    · show (r.pos + r.buf_info.block_size) % 2 ^ 32 % r.buf_info.total_size = _
      rw [Nat.mod_eq_of_lt (show r.pos + r.buf_info.block_size < 2 ^ 32 by omega)]
    · exact Bytes.range_fill 0
  | cons item rest =>
    have hrun : (fun fuel => fillFrame fuel r) = fun fuel => sendLoop fuel r.clearFrame 0 0 := by
      funext fuel
      rw [fillFrame, hq]
    rw [hrun]
    refine (sendLoop_returns (r := r.clearFrame) (item :: rest) hq hat).weaken fun out h => ?_
    exact ⟨h.items, h.pos, h.more, h.copied, h.drained, h.cmp,
      ⟨h.writer.buf_info, h.writer.write_data, h.writer.write_index, h.writer.activated⟩⟩

end AudioReplay

namespace Playback

open AudioReplay

variable {c c' : Playback}

/-- What the place of the application says about the stream. -/
def PcOk (c : Playback) : Prop :=
  match c.pc with
  | .idle => c.replay.activated = false → c.replay.queue = [] ∧ c.replay.write_index = 0
  | .writing _ size index => index ≤ size ∧ size < 65536
  | .pushing _ size index => index ≤ size ∧ size < 65536 ∧ c.replay.write_index = 0
  | .flush => True
  | .setStop | .initCmp => c.replay.write_index = 0
  | .waitCmp => c.replay.write_index = 0 ∧ (c.replay.cmp = true → c.replay.queue = [])
  | .clearStop => c.replay.write_index = 0 ∧ c.replay.queue = []

structure StreamInv (c : Playback) : Prop where
  items : c.replay.ItemsOk
  pos : c.replay.buf_info.block_size ∣ c.replay.pos ∧ c.replay.pos < c.replay.buf_info.total_size
  copied : c.replay.CopiesOk
  write_index : c.replay.write_index < RT_AUDIO_REPLAY_MP_BLOCK_SIZE
  pc : c.PcOk
  stream : ∃ parts, List.Forall₂ (SentFrame.Carries · c.replay.buf_info.block_size) c.frames parts ∧
    parts.flatten ++ c.left = c.written

theorem Fresh.streamInv (h : Fresh c) : StreamInv c := by
  obtain ⟨hw, hr, hp⟩ := h.indices
  refine ⟨⟨by simp [h.queue], by simp [h.queue], fun _ => hr⟩, ?_, by simp [CopiesOk, h.copied], ?_, ?_,
    [], by simp [h.frames], ?_⟩
  · rw [hp]
    exact ⟨dvd_zero _, c.replay.buf_info.total_size_pos⟩
  · rw [hw]
    decide
  · simp [PcOk, h.idle, h.queue, hw]
  · simp [left, queued, pending, rest, h.idle, h.queue, h.written, hw, Bytes.range_zero]

/-- The next position of a frame. -/
theorem next_pos {r : AudioReplay} {start : Nat}
    (h : r.buf_info.block_size ∣ start ∧ start < r.buf_info.total_size) :
    r.buf_info.block_size ∣ (start + r.buf_info.block_size) % r.buf_info.total_size ∧
      (start + r.buf_info.block_size) % r.buf_info.total_size < r.buf_info.total_size :=
  ⟨(Nat.dvd_mod_iff r.buf_info.dvd).mpr (Nat.dvd_add h.1 (dvd_refl _)),
    Nat.mod_lt _ r.buf_info.total_size_pos⟩

theorem StreamInv.frame {fuel : Nat} (h : StreamInv c) (hfits : c.replay.Fits)
    (hs : c.audio_send_replay_frame fuel = some c') : StreamInv c' := by
  obtain ⟨⟨r, under_run⟩, hfill, rfl⟩ := Option.map_eq_some_iff.mp hs
  have hout := (fillFrame_returns h.items h.copied hfits h.pos).post hfill
  obtain ⟨more, hqueued, hlen, hbuffer, hshort⟩ := hout.more
  have hsame : SameWriter c.replay r := hout.writer
  have hinfo := hsame.buf_info
  have hpos16 : c.replay.pos % 65536 = c.replay.pos :=
    Nat.mod_eq_of_lt (Nat.lt_trans h.pos.2 c.replay.buf_info.total_size_lt)
  refine ⟨hout.items, ?_, hout.copied, ?_, ?_, ?_⟩
  · show r.buf_info.block_size ∣ r.pos ∧ r.pos < r.buf_info.total_size
    rw [hinfo, show r.pos = _ from hout.pos]
    exact next_pos h.pos
  · show r.write_index < _
    rw [hsame.write_index]
    exact h.write_index
  · have hpc := h.pc
    have hdrained : c.replay.queue = [] → r.queue = [] := hout.drained
    have hcmp : r.cmp = true → c.replay.cmp = true ∨ r.queue = [] := hout.cmp
    unfold PcOk at hpc ⊢
    dsimp only
    rw [hsame.write_index, hsame.activated]
    cases hc : c.pc <;> rw [hc] at hpc
    case idle => exact fun ha => ⟨hdrained (hpc ha).1, (hpc ha).2⟩
    case waitCmp => exact ⟨hpc.1, fun hd => (hcmp hd).elim (fun hd => hdrained (hpc.2 hd)) id⟩
    case clearStop => exact ⟨hpc.1, hdrained hpc.2⟩
    all_goals exact hpc
  · obtain ⟨parts, hframes, hstream⟩ := h.stream
    refine ⟨parts ++ [more], ?_, ?_⟩
    · show List.Forall₂ (SentFrame.Carries · r.buf_info.block_size) _ _
      rw [hinfo]
      refine List.rel_append hframes (.cons ⟨hlen, ?_, hshort⟩ .nil)
      show r.buffer.range (c.replay.pos % 65536) r.buf_info.block_size = _
      rw [hpos16, hinfo]
      exact hbuffer
    · have hleft : more ++ left { c with
          replay := r
          frames := c.frames ++
            [⟨r.buffer.range (c.replay.pos % 65536) c.replay.buf_info.block_size, under_run⟩] } =
          c.left := by
        unfold left pending rest
        dsimp only
        rw [← hqueued, hsame.write_data, hsame.write_index]
        simp only [List.append_assoc]
      show (parts ++ [more]).flatten ++ left { c with
        replay := r
        frames := c.frames ++ [⟨r.buffer.range (c.replay.pos % 65536) r.buf_info.block_size, under_run⟩] } = _
      rw [hinfo, List.flatten_append, List.flatten_singleton, List.append_assoc, hleft]
      exact hstream

/-- A step of the application that moves bytes on towards the queue. -/
theorem StreamInv.moves {r : AudioReplay} {pc : WriterPc} (h : StreamInv c) (hitems : r.ItemsOk)
    (hinfo : r.buf_info = c.replay.buf_info) (hpos : r.pos = c.replay.pos)
    (hcopied : r.copied = c.replay.copied) (hindex : r.write_index < RT_AUDIO_REPLAY_MP_BLOCK_SIZE)
    (hpc : PcOk { c with replay := r, pc := pc })
    (hleft : left { c with replay := r, pc := pc } = c.left) :
    StreamInv { c with replay := r, pc := pc } := by
  refine ⟨hitems, ?_, fun p hp => ?_, hindex, hpc, ?_⟩
  · show r.buf_info.block_size ∣ r.pos ∧ r.pos < r.buf_info.total_size
    rw [hinfo, hpos]
    exact h.pos
  · show p.1 + p.2 ≤ r.buf_info.total_size
    rw [hinfo]
    exact h.copied p (hcopied ▸ hp)
  · show ∃ parts, List.Forall₂ (SentFrame.Carries · r.buf_info.block_size) c.frames parts ∧ _
    rw [hinfo, hleft]
    exact h.stream

theorem push_items {r r' : AudioReplay} {size : Nat} (h : r.ItemsOk)
    (hsize : 0 < size ∧ size ≤ RT_AUDIO_REPLAY_MP_BLOCK_SIZE) (hs : r.push size = some r') :
    r' = { r with queue := r.queue ++ [⟨r.write_data, size⟩] } ∧ r'.ItemsOk ∧
      r'.queued = r.queued ++ r.write_data.range 0 size := by
  unfold AudioReplay.push at hs
  split at hs
  · obtain rfl := Option.some.inj hs
    refine ⟨rfl, ⟨fun item hitem => ?_, fun item rest hq => ?_, fun hnil => ?_⟩, ?_⟩
    · rcases List.mem_append.mp hitem with hitem | hitem
      · exact h.size item hitem
      · rw [List.mem_singleton.mp hitem]
        exact hsize
    · show r.read_index < item.data_size
      cases hold : r.queue with
      | nil =>
        have hcons : r.queue ++ [⟨r.write_data, size⟩] = item :: rest := hq
        rw [hold] at hcons
        obtain ⟨rfl, -⟩ := List.cons.inj hcons
        rw [h.empty hold]
        exact hsize.1
      | cons first others =>
        have hcons : r.queue ++ [⟨r.write_data, size⟩] = item :: rest := hq
        rw [hold] at hcons
        obtain ⟨rfl, -⟩ := List.cons.inj hcons
        exact h.read first others hold
    · simp at hnil
    · have hle : r.read_index ≤ (r.queue.flatMap DataItem.bytes).length := by
        cases hold : r.queue with
        | nil => rw [h.empty hold]; exact Nat.zero_le _
        | cons first others =>
          have := h.read first others hold
          simp only [List.flatMap_cons, List.length_append, bytes_length]
          omega
      unfold queued
      rw [List.flatMap_append, List.drop_append_of_le_length hle]
      simp [DataItem.bytes]
  · cases hs

/-- A block from the pool holds nothing yet. -/
theorem allocBlock_cases {r r' : AudioReplay} (hindex : r.write_index < RT_AUDIO_REPLAY_MP_BLOCK_SIZE)
    (hs : r.allocBlock = some r') :
    ∃ mp write_data, r' = { r with mp := mp, write_data := write_data } ∧
      write_data.range 0 r.write_index = r.write_data.range 0 r.write_index := by
  unfold AudioReplay.allocBlock at hs
  split at hs
  · next hzero =>
    split at hs
    · obtain rfl := Option.some.inj hs
      rw [Nat.mod_eq_of_lt hindex] at hzero
      exact ⟨_, _, rfl, by rw [hzero]; rfl⟩
    · cases hs
  · obtain rfl := Option.some.inj hs
    exact ⟨_, _, rfl, rfl⟩

/-- A turn of `_audio_dev_write` copies `n` bytes behind those of the block, or ends the call. -/
theorem writeTurn_cases {buffer : Bytes} {size index : Nat}
    (hindex : c.replay.write_index < RT_AUDIO_REPLAY_MP_BLOCK_SIZE)
    (hs : c.writeTurn buffer size index = some c') :
    (index < size ∧ ∃ n mp write_data,
      n = min (RT_AUDIO_REPLAY_MP_BLOCK_SIZE - c.replay.write_index) (size - index) ∧
      write_data.range 0 (c.replay.write_index + n) =
        c.replay.write_data.range 0 c.replay.write_index ++ buffer.range index n ∧
      c' = { c with
        replay := { c.replay with
          mp := mp
          write_data := write_data
          write_index := (c.replay.write_index + n) % RT_AUDIO_REPLAY_MP_BLOCK_SIZE }
        pc :=
          if (c.replay.write_index + n) % RT_AUDIO_REPLAY_MP_BLOCK_SIZE = 0 then
            .pushing buffer size ((index + n) % 65536)
          else .writing buffer size ((index + n) % 65536) }) ∨
    (size ≤ index ∧ c' = { c with replay := { c.replay with activated := true }, pc := .idle }) := by
  have hblock : RT_AUDIO_REPLAY_MP_BLOCK_SIZE = 4096 := rfl
  unfold Playback.writeTurn at hs
  split at hs
  · next hlt =>
    obtain ⟨r, halloc, rfl⟩ := Option.map_eq_some_iff.mp hs
    obtain ⟨mp, write_data, rfl, hdata⟩ := allocBlock_cases hindex halloc
    have hcount : writeCount { c.replay with mp := mp, write_data := write_data } size index =
        min (RT_AUDIO_REPLAY_MP_BLOCK_SIZE - c.replay.write_index) (size - index) :=
      Nat.mod_eq_of_lt (by omega)
    dsimp only
    generalize writeCount { c.replay with mp := mp, write_data := write_data } size index = n at hcount
    have hnext : (c.replay.write_index + n) % 65536 = c.replay.write_index + n :=
      Nat.mod_eq_of_lt (by omega)
    have happend := Bytes.range_blit_append write_data buffer 0 c.replay.write_index index n
    rw [Nat.zero_add, hdata] at happend
    refine .inl ⟨hlt, n, mp, _, hcount, happend, ?_⟩
    unfold copyBlock
    simp only [hnext]
  · next hdone => exact .inr ⟨Nat.not_lt.mp hdone, (Option.some.inj hs).symm⟩

theorem StreamInv.writeTurn {buffer : Bytes} {size index : Nat} (h : StreamInv c)
    (hpc : c.pc = .writing buffer size index) (hs : c.writeTurn buffer size index = some c') :
    StreamInv c' := by
  have hok := h.pc
  unfold PcOk at hok
  rw [hpc] at hok
  obtain ⟨hle, hsize⟩ := hok
  have hindex := h.write_index
  have hblock : RT_AUDIO_REPLAY_MP_BLOCK_SIZE = 4096 := rfl
  rcases writeTurn_cases hindex hs with ⟨hlt, n, mp, write_data, hn, hcopy, rfl⟩ | ⟨hdone, rfl⟩
  · rw [Nat.mod_eq_of_lt (show index + n < 65536 by omega)]
    have hrest : buffer.range index (size - index) =
        buffer.range index n ++ buffer.range (index + n) (size - (index + n)) := by
      rw [Bytes.range_split (show n ≤ size - index by omega), Nat.sub_sub]
    have hleft : c.left = c.replay.queued ++ (c.replay.write_data.range 0 c.replay.write_index ++
        buffer.range index n) ++ buffer.range (index + n) (size - (index + n)) := by
      unfold left pending rest
      simp only [hpc]
      rw [hrest]
      simp only [List.append_assoc]
    by_cases hfull : c.replay.write_index + n = 4096
    · have hzero : (c.replay.write_index + n) % RT_AUDIO_REPLAY_MP_BLOCK_SIZE = 0 := by
        rw [hfull]
        rfl
      rw [if_pos hzero]
      refine h.moves ⟨h.items.size, h.items.read, h.items.empty⟩ rfl rfl rfl ?_ ?_ ?_
      · rw [hzero]
        exact Nat.zero_lt_succ _
      · exact ⟨by omega, hsize, hzero⟩
      · rw [hleft, ← hcopy, hfull]
        rfl
    · have hmod : (c.replay.write_index + n) % RT_AUDIO_REPLAY_MP_BLOCK_SIZE =
          c.replay.write_index + n := Nat.mod_eq_of_lt (by omega)
      rw [hmod, if_neg (by omega)]
      refine h.moves ⟨h.items.size, h.items.read, h.items.empty⟩ rfl rfl rfl ?_ ⟨by omega, hsize⟩ ?_
      · show c.replay.write_index + n < RT_AUDIO_REPLAY_MP_BLOCK_SIZE
        omega
      · rw [hleft, ← hcopy]
        rfl
  · refine h.moves ⟨h.items.size, h.items.read, h.items.empty⟩ rfl rfl rfl h.write_index
      (fun ha => by cases ha) ?_
    unfold left pending rest
    simp only [hpc]
    rw [show size - index = 0 by omega, Bytes.range_zero]
    rfl

theorem StreamInv.runApp (h : StreamInv c) (hs : c.runApp = some c') : StreamInv c' := by
  have hok := h.pc
  unfold PcOk at hok
  unfold Playback.runApp at hs
  cases hpc : c.pc <;> rw [hpc] at hs hok
  case idle => cases hs
  case writing buffer size index => exact h.writeTurn hpc hs
  case pushing buffer size index =>
    obtain ⟨r, hpush, rfl⟩ := Option.map_eq_some_iff.mp hs
    obtain ⟨hr, hitems, hqueued⟩ := push_items h.items (by decide) hpush
    refine h.moves hitems (by rw [hr]) (by rw [hr]) (by rw [hr]) (by rw [hr]; exact h.write_index)
      ⟨hok.1, hok.2.1⟩ ?_
    unfold left pending rest
    simp only [hpc]
    rw [hqueued, show r.write_index = 0 by rw [hr]; exact hok.2.2, Bytes.range_zero]
    simp
  case flush =>
    obtain ⟨r, hflush, rfl⟩ := Option.map_eq_some_iff.mp hs
    unfold audio_flush_replay_frame at hflush
    split at hflush
    · next hindex =>
      obtain ⟨r1, hpush, rfl⟩ := Option.map_eq_some_iff.mp hflush
      obtain ⟨hr, hitems, hqueued⟩ := push_items h.items
        ⟨Nat.pos_of_ne_zero hindex, h.write_index.le⟩ hpush
      refine h.moves ⟨hitems.size, hitems.read, hitems.empty⟩ (by rw [hr]) (by rw [hr]) (by rw [hr])
        (show 0 < RT_AUDIO_REPLAY_MP_BLOCK_SIZE by decide) rfl ?_
      unfold left pending rest
      simp only [hpc]
      rw [show queued { r1 with write_index := 0 } = r1.queued from rfl, hqueued, Bytes.range_zero]
      simp
    · next hindex =>
      obtain rfl := Option.some.inj hflush
      refine h.moves h.items rfl rfl rfl h.write_index (of_not_not hindex) ?_
      unfold left pending rest
      simp only [hpc]
  case setStop =>
    obtain rfl := Option.some.inj hs
    refine h.moves ⟨h.items.size, h.items.read, h.items.empty⟩ rfl rfl rfl h.write_index hok ?_
    unfold left pending rest
    simp only [hpc]
    rfl
  case initCmp =>
    obtain rfl := Option.some.inj hs
    refine h.moves ⟨h.items.size, h.items.read, h.items.empty⟩ rfl rfl rfl h.write_index
      ⟨hok, fun hc => by cases hc⟩ ?_
    unfold left pending rest
    simp only [hpc]
    rfl
  case waitCmp =>
    dsimp only at hs
    split at hs
    · next hcmp =>
      obtain rfl := Option.some.inj hs
      refine h.moves ⟨h.items.size, h.items.read, h.items.empty⟩ rfl rfl rfl h.write_index
        ⟨hok.1, hok.2 hcmp⟩ ?_
      unfold left pending rest
      simp only [hpc]
      rfl
    · cases hs
  case clearStop =>
    obtain rfl := Option.some.inj hs
    refine h.moves ⟨h.items.size, h.items.read, h.items.empty⟩ rfl rfl rfl h.write_index
      (fun _ => ⟨hok.2, hok.1⟩) ?_
    unfold left pending rest
    simp only [hpc]
    rfl

theorem isIdle_iff : c.isIdle = true ↔ c.pc = .idle := by
  unfold isIdle
  cases c.pc <;> simp

theorem StreamInv.step {fuel : Nat} {l : PlaybackStep} (h : StreamInv c) (hallowed : c.Allowed l)
    (hs : c.step fuel l = some c') : StreamInv c' := by
  cases l with
  | devOpen =>
    simp only [Playback.step] at hs
    split at hs
    · next hidle =>
      obtain rfl := Option.some.inj hs
      unfold audio_dev_open
      split
      · exact h
      · next hactive =>
        have hpc := isIdle_iff.mp hidle
        have hok := h.pc
        unfold PcOk at hok
        rw [hpc] at hok
        obtain ⟨hq, hindex⟩ := hok (eq_false_of_ne_true hactive)
        have hread := h.items.empty hq
        refine ⟨⟨h.items.size, fun item rest hc => ?_, fun _ => rfl⟩,
          ⟨dvd_zero _, c.replay.buf_info.total_size_pos⟩, h.copied,
          show 0 < RT_AUDIO_REPLAY_MP_BLOCK_SIZE by decide, ?_, ?_⟩
        · have hcons : c.replay.queue = item :: rest := hc
          rw [hq] at hcons
          cases hcons
        · unfold PcOk
          simp only [hpc]
          exact fun _ => ⟨hq, trivial⟩
        · obtain ⟨parts, hframes, hstream⟩ := h.stream
          refine ⟨parts, hframes, ?_⟩
          rw [← hstream]
          unfold left pending rest queued
          simp only [hpc, hq, hindex]
          simp
    · cases hs
  | write buffer size =>
    simp only [Playback.step] at hs
    split at hs
    · next hidle =>
      obtain rfl := Option.some.inj hs
      have hpc := isIdle_iff.mp hidle
      refine ⟨h.items, h.pos, h.copied, h.write_index, ⟨Nat.zero_le _, hallowed⟩, ?_⟩
      obtain ⟨parts, hframes, hstream⟩ := h.stream
      refine ⟨parts, hframes, ?_⟩
      rw [← hstream]
      unfold left pending rest
      simp only [hpc]
      simp
    · cases hs
  | stop =>
    simp only [Playback.step] at hs
    split at hs
    · next hidle =>
      obtain rfl := Option.some.inj hs
      have hpc := isIdle_iff.mp hidle.1
      refine h.moves h.items rfl rfl rfl h.write_index trivial ?_
      unfold left pending rest
      simp only [hpc]
    · cases hs
  | app => exact h.runApp hs
  | frame => exact h.frame hallowed hs

theorem reachable_streamInv (hr : (playbackMachine.restrict Allowed).Reachable c) : StreamInv c := by
  apply hr.invariant
  · exact fun c h => h.streamInv
  · rintro c l c' - h ⟨hallowed, fuel, hs⟩
    exact h.step hallowed hs

end Playback

theorem replay_stream {c : Playback} (hr : (playbackMachine.restrict Playback.Allowed).Reachable c) :
    StreamContract c := by
  have h := Playback.reachable_streamInv hr
  refine ⟨h.stream, h.pos, h.copied, fun hfits => ?_⟩
  have hreturns := AudioReplay.fillFrame_returns h.items h.copied hfits h.pos
  refine ⟨c.replay.queue.length + 1, fun fuel hfuel => ?_⟩
  obtain ⟨r, hfill⟩ := hreturns.total hfuel
  exact ⟨_, Option.map_eq_some_iff.mpr ⟨r, hfill, rfl⟩⟩

/-- The device after `_audio_dev_init`. -/
def silent (buf_info : AudioBufInfo) : Playback :=
  { replay :=
      { mp := RT_AUDIO_REPLAY_MP_BLOCK_COUNT, queue := [], cmp := false, buf_info := buf_info
        buffer := fun _ => 0, write_data := fun _ => 0, write_index := 0, read_index := 0, pos := 0
        event := false, activated := false, copied := [] }
    pc := .idle, written := [], frames := [] }

theorem silent_fresh (buf_info : AudioBufInfo) : (silent buf_info).Fresh :=
  ⟨rfl, rfl, rfl, rfl, ⟨rfl, rfl, rfl⟩, rfl, rfl, rfl⟩

/-- `size` bytes of value 1 that need `turns` steps to be written, and the stop that flushes them. -/
def writeAndFlush (size turns : Nat) : List PlaybackStep :=
  [.write (fun _ => 1) size] ++ List.replicate turns .app ++ [.stop, .app]

def Playback.stepAllowed (c : Playback) (l : PlaybackStep) : Option Playback :=
  if c.Allowed l then c.step 10 l else none

theorem replay_stream_stopped : ∃ c,
    Machine.runs Playback.stepAllowed (silent sound_buffer_info)
      (writeAndFlush 600 2 ++ [.frame, .frame, .app, .app, .frame, .app, .app]) = some c ∧
      c.replay.pos = 512 ∧ c.frames.map SentFrame.under_run = [false, true, true] ∧
        StreamContract c := by
  have hrun : ∃ c,
      Machine.runs Playback.stepAllowed (silent sound_buffer_info)
        (writeAndFlush 600 2 ++ [.frame, .frame, .app, .app, .frame, .app, .app]) = some c ∧
        c.replay.pos = 512 ∧ c.frames.map SentFrame.under_run = [false, true, true] := by
    decide +kernel
  obtain ⟨c, hc, hpos, hunder⟩ := hrun
  refine ⟨c, hc, hpos, hunder, replay_stream ?_⟩
  refine (Machine.Reachable.start (silent_fresh _)).runs (fun c l c' hs => ?_) hc
  unfold Playback.stepAllowed at hs
  split at hs
  · exact ⟨‹_›, 10, hs⟩
  · cases hs

/-- A hardware buffer of one block of 5000 bytes. -/
def oneBlock : AudioBufInfo := ⟨5000, 5000, by decide, by decide, by decide, by decide⟩

/-- One frame takes an item of 4096 bytes and one of a single byte, and moves on by 4096 bytes too
much. -/
theorem replay_stream_displaced : ∃ c, playbackMachine.Reachable c ∧
    c.replay.buf_info.block_size = 5000 ∧ c.replay.pos = 4096 ∧ ¬StreamContract c := by
  have hrun : ∃ c,
      Machine.runs (Playback.step 10) (silent oneBlock) (writeAndFlush 4097 4 ++ [.frame]) =
        some c ∧ c.replay.buf_info.block_size = 5000 ∧ c.replay.pos = 4096 := by
    decide +kernel
  obtain ⟨c, hc, hblock, hpos⟩ := hrun
  refine ⟨c, ?_, hblock, hpos, fun hcontract => ?_⟩
  · exact (Machine.Reachable.start (silent_fresh _)).runs (fun c l c' hs => ⟨10, hs⟩) hc
  · have hdvd := hcontract.pos.1
    rw [hblock, hpos] at hdvd
    exact absurd hdvd (by decide)

end Ab32Vg1.Drivers
