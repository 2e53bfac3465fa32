import Ab32Vg1.Drivers.RingBlockRun

/-! The queues of blocks of `ringblk_buf.c`: `rt_rbb_blk_queue_get` walks the list, and the queue that it
fills names a range of the descriptors. -/

namespace Ab32Vg1.Drivers

open Kernel ProofKit RbbStatus

namespace Rbb

/-- What `rt_rbb_blk_queue_get` leaves in the queue that it is given. -/
def queueOf (taken : List Nat) (blk_queue : RbbBlkQueue) : RbbBlkQueue :=
  match taken with
  | [] => blk_queue
  | first :: _ => { blocks := first, blk_num := taken.length }

/-- `rt_rbb_blk_queue_get` with its queue, and the size that it returns. -/
def blkQueueGet (rbb : Rbb) (queue_data_len : Nat) (blk_queue : RbbBlkQueue) : Rbb × RbbBlkQueue × Nat :=
  let (rbb, taken, data_total_size) := rbb.rt_rbb_blk_queue_get queue_data_len
  (rbb, queueOf taken blk_queue, data_total_size)

/-- The loop of `rt_rbb_blk_queue_len` from the descriptor `block` on, `n` times.  There is none past the
end of the set. -/
def lenLoop (rbb : Rbb) : (n block data_total_size : Nat) → Option Nat
  | 0, _, data_total_size => some data_total_size
  | n + 1, block, data_total_size =>
    if block < rbb.blk_max_num then
      lenLoop rbb n (block + 1) (add32 data_total_size (rbb.blk_set block).size)
    else none

def rt_rbb_blk_queue_len (rbb : Rbb) (blk_queue : RbbBlkQueue) : Option Nat :=
  rbb.lenLoop blk_queue.blk_num blk_queue.blocks 0

end Rbb

/-! ### The calls -/

/-- The calls of the users of a buffer, in any order and with any arguments: a block is one of the set. -/
inductive RbbCall where
  | alloc (blk_size : Nat)
  | put (block : Nat)
  | get
  | free (block : Nat)
  | queueGet (queue_data_len : Nat)
  | queueFree (blk_queue : RbbBlkQueue)

namespace Rbb

def call (rbb : Rbb) : RbbCall → Option Rbb
  | .alloc blk_size => (rbb.rt_rbb_blk_alloc blk_size).map Prod.fst
  | .put block => if block < rbb.blk_max_num then rbb.rt_rbb_blk_put block else none
  | .get => some rbb.rt_rbb_blk_get.1
  | .free block => if block < rbb.blk_max_num then rbb.rt_rbb_blk_free block else none
  | .queueGet queue_data_len => some (rbb.rt_rbb_blk_queue_get queue_data_len).1
  | .queueFree blk_queue => rbb.rt_rbb_blk_queue_free blk_queue

end Rbb

def rbbCalls : Machine Rbb RbbCall where
  start rbb := ∃ buf buf_size block_set blk_max_num,
    rbb = Rbb.rt_rbb_init buf buf_size block_set blk_max_num
  step rbb l rbb' := rbb.call l = some rbb'

namespace Rbb

/-- The blocks that a call took out of the list. -/
def removed (rbb rbb' : Rbb) : List Nat := rbb.blk_list.filter fun i => i ∉ rbb'.blk_list

/-- The bytes of some blocks. -/
def blocksSize (rbb : Rbb) (blocks : List Nat) : Nat := (blocks.map fun i => (rbb.blk_set i).size).sum

/-- What is promised of `rt_rbb_blk_queue_get`, which leaves the buffer as `rbb'`: its result is the size of
the blocks it took out, which lie one behind the other, and at most `queue_data_len`; the queue has that
length, and to free it makes these blocks unused and leaves the others. -/
structure Extracted (rbb rbb' : Rbb) (queue_data_len : Nat) (blk_queue : RbbBlkQueue)
    (data_total_size : Nat) : Prop where
  bounded : data_total_size ≤ queue_data_len
  sum : data_total_size = rbb.blocksSize (removed rbb rbb')
  len : rbb'.rt_rbb_blk_queue_len blk_queue = some data_total_size
  contiguous : (removed rbb rbb').IsChain fun a b => (rbb.blk_set a).span.stop = (rbb.blk_set b).buf
  freed : ∃ rbb'', rbb'.rt_rbb_blk_queue_free blk_queue = some rbb'' ∧
    ∀ i, (rbb''.blk_set i).status =
      if i ∈ removed rbb rbb' then RT_RBB_BLK_UNUSED else (rbb'.blk_set i).status

/-- The listed blocks that were put, from the first one on, as far as they fit and lie one behind the other;
the block after them is not put, lies lower, or does not fit. -/
structure Front (rbb : Rbb) (queue_data_len : Nat) (skipped run rest : List Nat) : Prop where
  list : rbb.blk_list = skipped ++ (run ++ rest)
  skipped : ∀ i ∈ skipped, (rbb.blk_set i).status ≠ RT_RBB_BLK_PUT
  put : ∀ i ∈ run, (rbb.blk_set i).status = RT_RBB_BLK_PUT
  contiguous : run.IsChain fun a b => (rbb.blk_set a).span.stop = (rbb.blk_set b).buf
  fits : rbb.blocksSize run ≤ queue_data_len
  ends : ∀ last ∈ run.getLast?, ∀ next ∈ rest.head?, (rbb.blk_set next).status ≠ RT_RBB_BLK_PUT ∨
    (rbb.blk_set last).buf > (rbb.blk_set next).buf ∨
      add32 (rbb.blocksSize run) (rbb.blk_set next).size > queue_data_len

/-- Either no block was put, and the queue given is empty; or the first block that was put and those behind
it have the descriptors from the first one's on. -/
def QueueReady (rbb : Rbb) (queue_data_len : Nat) (blk_queue : RbbBlkQueue) : Prop :=
  ((∀ i ∈ rbb.blk_list, (rbb.blk_set i).status ≠ RT_RBB_BLK_PUT) ∧ blk_queue.blk_num = 0) ∨
    ∃ skipped first run rest, rbb.Front queue_data_len skipped (first :: run) rest ∧
      (first :: run).Perm (List.range' first (run.length + 1))

/-! ### What every call keeps -/

variable {rbb rbb' : Rbb} {i block : Nat}

/-- The list names used descriptors, each once. -/
structure Listed (rbb : Rbb) : Prop where
  nodup : rbb.blk_list.Nodup
  used : ∀ i ∈ rbb.blk_list, i < rbb.blk_max_num ∧ (rbb.blk_set i).status ≠ RT_RBB_BLK_UNUSED

theorem listed_init (buf buf_size : Nat) (block_set : Nat → RbbBlk) (blk_max_num : Nat) :
    (rt_rbb_init buf buf_size block_set blk_max_num).Listed :=
  ⟨List.nodup_nil, fun i hi => by cases hi⟩

/-- A used descriptor changes its status. -/
theorem Listed.restatus {st : RbbStatus} (h : rbb.Listed) (hst : st ≠ RT_RBB_BLK_UNUSED) :
    (rbb.setStatus block st).Listed := by
  refine ⟨h.nodup, fun i hi => ⟨(h.used i hi).1, ?_⟩⟩
  rw [RbbSystem.setStatus_status]
  split
  · exact hst
  · exact (h.used i hi).2

/-- A block leaves the list. -/
theorem Listed.leave {st : RbbStatus} (h : rbb.Listed) :
    ({ rbb with blk_list := rbb.blk_list.erase block }.setStatus block st).Listed := by
  refine ⟨h.nodup.erase _, fun i hi => ?_⟩
  obtain ⟨hne, hi⟩ := (h.nodup.mem_erase_iff).mp hi
  refine ⟨(h.used i hi).1, ?_⟩
  rw [RbbSystem.setStatus_status, if_neg hne]
  exact (h.used i hi).2

theorem Listed.link {new buf size : Nat} (h : rbb.Listed) (hnew : new < rbb.blk_max_num)
    (hunused : (rbb.blk_set new).status = RT_RBB_BLK_UNUSED) : (rbb.link new buf size).Listed := by
  have hnot : new ∉ rbb.blk_list := fun hin => (h.used new hin).2 hunused
  refine ⟨?_, fun i hi => ?_⟩
  · exact (List.perm_append_singleton new rbb.blk_list).nodup_iff.mpr (List.nodup_cons.mpr ⟨hnot, h.nodup⟩)
  · rw [RbbSystem.link_blk]
    rcases List.mem_append.mp hi with hi | hi
    · have hne : i ≠ new := fun heq => hnot (heq ▸ hi)
      rw [if_neg hne]
      exact h.used i hi
    · rw [List.mem_singleton.mp hi, if_pos rfl]
      exact ⟨hnew, RbbStatus.noConfusion⟩

/-- An allocation links its block, or does nothing. -/
theorem allocIn_cases (rbb : Rbb) (new_rbb blk_size : Nat) :
    (rbb.allocIn new_rbb blk_size).1 = rbb ∨
      ∃ buf, (rbb.allocIn new_rbb blk_size).1 = rbb.link new_rbb buf blk_size := by
  unfold allocIn
  split
  · dsimp only
    split
    · split
      · exact .inr ⟨_, rfl⟩
      · split
        · exact .inr ⟨_, rfl⟩
        · exact .inl rfl
    · split
      · exact .inr ⟨_, rfl⟩
      · exact .inl rfl
  · exact .inr ⟨_, rfl⟩

theorem Listed.alloc {blk_size : Nat} {r : Rbb × Option Nat} (h : rbb.Listed)
    (hs : rbb.rt_rbb_blk_alloc blk_size = some r) : r.1.Listed := by
  obtain ⟨-, hs⟩ := RT_ASSERT_bind_eq_some.mp hs
  split at hs
  · next new_rbb hfind =>
    have hunused := List.find?_some hfind
    have hnew := List.mem_range.mp (List.mem_of_find?_eq_some hfind)
    split at hs
    · obtain rfl := Option.some.inj hs
      rcases allocIn_cases rbb new_rbb blk_size with heq | ⟨buf, heq⟩
      · rw [heq]
        exact h
      · rw [heq]
        exact h.link hnew (of_decide_eq_true hunused)
    · obtain rfl := Option.some.inj hs
      exact h
  · obtain rfl := Option.some.inj hs
    exact h

theorem Listed.freeLoop {n : Nat} (h : rbb.Listed) (hs : Rbb.freeLoop n block rbb = some rbb') :
    rbb'.Listed := by
  induction n generalizing block rbb with
  | zero =>
    obtain rfl := Option.some.inj hs
    exact h
  | succ n ih =>
    obtain ⟨-, hs⟩ := Option.ite_none_right_eq_some.mp hs
    obtain ⟨rbb1, hfree, hs⟩ := Option.bind_eq_some_iff.mp hs
    obtain ⟨-, rfl⟩ := RbbSystem.rt_rbb_blk_free_eq hfree
    exact ih h.leave hs

theorem Listed.queueLoop {len total : Nat} {nodes taken : List Nat} (h : rbb.Listed) :
    (Rbb.queueLoop len nodes rbb taken total).1.Listed := by
  induction nodes generalizing rbb taken total with
  | nil => exact h
  | cons node nodes ih =>
    simp only [Rbb.queueLoop]
    split
    · split
      · exact ih h.leave
      · exact ih h
    · split
      · exact h
      · exact ih h.leave

theorem Listed.call {l : RbbCall} (h : rbb.Listed) (hs : rbb.call l = some rbb') : rbb'.Listed := by
  cases l with
  | alloc blk_size =>
    obtain ⟨r, hr, rfl⟩ := Option.map_eq_some_iff.mp hs
    exact h.alloc hr
  | put block =>
    obtain ⟨-, hs⟩ := Option.ite_none_right_eq_some.mp hs
    obtain ⟨-, hs⟩ := RT_ASSERT_bind_eq_some.mp hs
    obtain rfl := Option.some.inj hs
    exact h.restatus (by decide)
  | get =>
    obtain rfl := Option.some.inj hs
    unfold rt_rbb_blk_get
    split
    · exact h.restatus (by decide)
    · exact h
  | free block =>
    obtain ⟨-, hs⟩ := Option.ite_none_right_eq_some.mp hs
    obtain ⟨-, rfl⟩ := RbbSystem.rt_rbb_blk_free_eq hs
    exact h.leave
  | queueGet len =>
    obtain rfl := Option.some.inj hs
    exact h.queueLoop
  | queueFree blk_queue => exact h.freeLoop hs

theorem listed_reachable (hr : rbbCalls.Reachable rbb) : rbb.Listed := by
  apply hr.invariant
  · rintro rbb ⟨buf, buf_size, block_set, blk_max_num, rfl⟩
    exact listed_init _ _ _ _
  · exact fun rbb l rbb' _ h hs => h.call hs

/-! ### The blocks that leave the list -/

/-- Blocks leave the list one after the other. -/
def takeAll (rbb : Rbb) (taken : List Nat) : Rbb := taken.foldl take rbb

theorem take_blk (rbb : Rbb) (node i : Nat) : (rbb.take node).blk_set i =
    if i = node then { rbb.blk_set i with status := RT_RBB_BLK_GET } else rbb.blk_set i := by
  by_cases hi : i = node
  · subst hi
    simp [take, setStatus]
  · simp [take, setStatus, hi]

theorem takeAll_blk (rbb : Rbb) (taken : List Nat) (i : Nat) : (rbb.takeAll taken).blk_set i =
    if i ∈ taken then { rbb.blk_set i with status := RT_RBB_BLK_GET } else rbb.blk_set i := by
  induction taken generalizing rbb with
  | nil => rfl
  | cons node taken ih =>
    show ((rbb.take node).takeAll taken).blk_set i = _
    rw [ih, take_blk]
    by_cases hn : i = node <;> by_cases ht : i ∈ taken <;> simp [hn, ht]

theorem takeAll_max (rbb : Rbb) (taken : List Nat) : (rbb.takeAll taken).blk_max_num = rbb.blk_max_num := by
  induction taken generalizing rbb with
  | nil => rfl
  | cons node taken ih => exact ih (rbb.take node)

theorem mem_takeAll (hnd : rbb.blk_list.Nodup) (taken : List Nat) :
    i ∈ (rbb.takeAll taken).blk_list ↔ i ∈ rbb.blk_list ∧ i ∉ taken := by
  induction taken generalizing rbb with
  | nil => simp [takeAll]
  | cons node taken ih =>
    have hmem := hnd.mem_erase_iff (a := i) (b := node)
    rw [show rbb.takeAll (node :: taken) = (rbb.take node).takeAll taken from rfl,
      ih (hnd.erase node), show (rbb.take node).blk_list = rbb.blk_list.erase node from rfl, hmem,
      List.mem_cons]
    tauto

/-- What is taken from the list is what was removed. -/
theorem removed_takeAll {skipped run rest : List Nat} (hnd : rbb.blk_list.Nodup)
    (hlist : rbb.blk_list = skipped ++ (run ++ rest)) : removed rbb (rbb.takeAll run) = run := by
  have hmem : ∀ i ∈ rbb.blk_list, i ∉ (rbb.takeAll run).blk_list ↔ i ∈ run := by
    intro i hi
    rw [mem_takeAll hnd]
    tauto
  obtain ⟨-, hrest, hapart⟩ := List.nodup_append.mp (hlist ▸ hnd)
  obtain ⟨-, -, hapart'⟩ := List.nodup_append.mp hrest
  have hskipped : skipped.filter (fun i => i ∈ run) = [] := by
    refine List.filter_eq_nil_iff.mpr fun i hi hin => ?_
    exact hapart i hi i (List.mem_append_left _ (by simpa using hin)) rfl
  have hrun : run.filter (fun i => i ∈ run) = run := List.filter_eq_self.mpr (by simp)
  have hleft : rest.filter (fun i => i ∈ run) = [] := by
    refine List.filter_eq_nil_iff.mpr fun i hi hin => ?_
    exact hapart' i (by simpa using hin) i hi rfl
  rw [removed, List.filter_congr (q := fun i => i ∈ run) fun i hi => by simp [hmem i hi], hlist,
    List.filter_append, List.filter_append, hskipped, hrun, hleft]
  simp

/-- The descriptors that are still to be visited are as they were. -/
structure Agrees (rbb0 rbb : Rbb) (nodes : List Nat) : Prop where
  buf : ∀ i, (rbb.blk_set i).buf = (rbb0.blk_set i).buf
  size : ∀ i, (rbb.blk_set i).size = (rbb0.blk_set i).size
  status : ∀ i ∈ nodes, (rbb.blk_set i).status = (rbb0.blk_set i).status

theorem Agrees.take {rbb0 : Rbb} {node : Nat} {nodes : List Nat} (h : Agrees rbb0 rbb (node :: nodes))
    (hnot : node ∉ nodes) : Agrees rbb0 (rbb.take node) nodes := by
  refine ⟨fun i => ?_, fun i => ?_, fun i hi => ?_⟩
  · rw [take_blk, ← h.buf]
    split <;> rfl
  · rw [take_blk, ← h.size]
    split <;> rfl
  · have hne : i ≠ node := fun heq => hnot (heq ▸ hi)
    rw [take_blk, if_neg hne]
    exact h.status i (List.mem_cons_of_mem _ hi)

/-- The loop takes the blocks that are put, lie one above the other and fit. -/
theorem queueLoop_run {rbb0 : Rbb} {len : Nat} (hlen : len < 2 ^ 32) {run rest : List Nat}
    (taken : List Nat) (last total : Nat) (hagrees : Agrees rbb0 rbb (run ++ rest)) (hnd : (run ++ rest).Nodup)
    (hlast : taken.getLast? = some last)
    (hput : ∀ i ∈ run, (rbb0.blk_set i).status = RT_RBB_BLK_PUT)
    (hchain : (last :: run).IsChain fun a b => (rbb0.blk_set a).buf ≤ (rbb0.blk_set b).buf)
    (hfits : total + rbb0.blocksSize run ≤ len)
    (hends : ∀ last' ∈ (last :: run).getLast?, ∀ next ∈ rest.head?,
      (rbb0.blk_set next).status ≠ RT_RBB_BLK_PUT ∨ (rbb0.blk_set last').buf > (rbb0.blk_set next).buf ∨
        add32 (total + rbb0.blocksSize run) (rbb0.blk_set next).size > len) :
    queueLoop len (run ++ rest) rbb taken total =
      (rbb.takeAll run, taken ++ run, total + rbb0.blocksSize run) := by
  induction run generalizing rbb taken last total with
  | nil =>
    cases rest with
    | nil => simp [queueLoop, takeAll, blocksSize]
    | cons next rest =>
      have hstop := hends last rfl next rfl
      have hnext := hagrees.status next List.mem_cons_self
      simp only [List.nil_append, queueLoop, hlast]
      rw [if_pos]
      · simp [takeAll, blocksSize]
      · rw [hnext, hagrees.buf, hagrees.buf, hagrees.size]
        simpa [blocksSize] using hstop
  | cons node run ih =>
    have hsum : rbb0.blocksSize (node :: run) = (rbb0.blk_set node).size + rbb0.blocksSize run := rfl
    obtain ⟨hnot, hnd⟩ := List.nodup_cons.mp hnd
    obtain ⟨hle, hchain⟩ := List.isChain_cons_cons.mp hchain
    have hadd : add32 total (rbb.blk_set node).size = total + (rbb0.blk_set node).size := by
      rw [hagrees.size, add32, Nat.mod_eq_of_lt (by omega)]
    have hstatus : (rbb.blk_set node).status = RT_RBB_BLK_PUT := by
      rw [hagrees.status node List.mem_cons_self]
      exact hput node List.mem_cons_self
    simp only [List.cons_append, queueLoop, hlast, hadd]
    rw [if_neg]
    · rw [ih _ node _ (hagrees.take hnot) hnd (by simp) (fun i hi => hput i (List.mem_cons_of_mem _ hi))
        hchain (by omega) ?_]
      · rw [hsum, Nat.add_assoc, List.append_assoc]
        rfl
      · rw [Nat.add_assoc, ← hsum]
        intro last' hlast' next hnext
        exact hends last' (by simpa using hlast') next hnext
    · rw [hagrees.buf, hagrees.buf]
      rintro (h | h | h)
      · exact h hstatus
      · omega
      · omega

/-- The sizes as the loop adds them. -/
def addSizes (rbb : Rbb) (blocks : List Nat) (total : Nat) : Nat :=
  blocks.foldl (fun total i => add32 total (rbb.blk_set i).size) total

/-- What the loop takes, and what stops it. -/
theorem queueLoop_takes {rbb0 : Rbb} (len : Nat) {nodes : List Nat} (taken : List Nat) (last total : Nat)
    (hagrees : Agrees rbb0 rbb nodes) (hnd : nodes.Nodup) (hlast : taken.getLast? = some last) :
    ∃ run rest, nodes = run ++ rest ∧
      queueLoop len nodes rbb taken total = (rbb.takeAll run, taken ++ run, rbb0.addSizes run total) ∧
      (∀ i ∈ run, (rbb0.blk_set i).status = RT_RBB_BLK_PUT) ∧
      ∀ last' ∈ (last :: run).getLast?, ∀ next ∈ rest.head?,
        (rbb0.blk_set next).status ≠ RT_RBB_BLK_PUT ∨ (rbb0.blk_set last').buf > (rbb0.blk_set next).buf ∨
          add32 (rbb0.addSizes run total) (rbb0.blk_set next).size > len := by
  induction nodes generalizing rbb taken last total with
  | nil => exact ⟨[], [], rfl, by simp [queueLoop, takeAll, addSizes], by simp, by simp⟩
  | cons node nodes ih =>
    obtain ⟨hnot, hnd⟩ := List.nodup_cons.mp hnd
    have hnode := hagrees.status node List.mem_cons_self
    simp only [queueLoop, hlast, hnode, hagrees.buf, hagrees.size]
    split
    · next hstop =>
      refine ⟨[], node :: nodes, rfl, by simp [takeAll, addSizes], by simp, fun last' hl next hn => ?_⟩
      obtain rfl : last = last' := by simpa using hl
      obtain rfl : node = next := by simpa using hn
      exact hstop
    · next hgo =>
      obtain ⟨run, rest, rfl, heq, hput, hends⟩ :=
        ih (taken ++ [node]) node (add32 total (rbb0.blk_set node).size) (hagrees.take hnot) hnd (by simp)
      refine ⟨node :: run, rest, rfl, ?_, fun i hi => ?_, fun last' hl next hn => ?_⟩
      · rw [heq, List.append_assoc]
        rfl
      · rcases List.mem_cons.mp hi with rfl | hi
        · exact not_not.mp fun h => hgo (.inl h)
        · exact hput i hi
      · exact hends last' (by simpa using hl) next hn

/-- The blocks before the first one that was put are left in the list. -/
theorem queueLoop_skips (len total : Nat) {skipped : List Nat} (nodes : List Nat)
    (hskipped : ∀ i ∈ skipped, (rbb.blk_set i).status ≠ RT_RBB_BLK_PUT) :
    queueLoop len (skipped ++ nodes) rbb [] total = queueLoop len nodes rbb [] total := by
  induction skipped with
  | nil => rfl
  | cons node skipped ih =>
    have hnode := hskipped node List.mem_cons_self
    simp only [List.cons_append, queueLoop, List.getLast?_nil, if_neg hnode]
    exact ih fun i hi => hskipped i (List.mem_cons_of_mem _ hi)

/-- The list has no block that was put, or a first one. -/
theorem first_put (rbb : Rbb) : (∀ i ∈ rbb.blk_list, (rbb.blk_set i).status ≠ RT_RBB_BLK_PUT) ∨
    ∃ skipped first nodes, rbb.blk_list = skipped ++ first :: nodes ∧
      (∀ i ∈ skipped, (rbb.blk_set i).status ≠ RT_RBB_BLK_PUT) ∧
      (rbb.blk_set first).status = RT_RBB_BLK_PUT := by
  cases hfind : rbb.blk_list.find? fun i => (rbb.blk_set i).status = RT_RBB_BLK_PUT with
  | none => exact .inl fun i hi => by simpa using List.find?_eq_none.mp hfind i hi
  | some first =>
    obtain ⟨hput, skipped, nodes, hlist, hskipped⟩ := List.find?_eq_some_iff_append.mp hfind
    exact .inr ⟨skipped, first, nodes, hlist, fun i hi => by simpa using hskipped i hi,
      of_decide_eq_true hput⟩

/-! ### The queue -/

/-- One turn of the loop of `rt_rbb_blk_queue_free`. -/
theorem freeLoop_succ {n : Nat} (hmax : block < rbb.blk_max_num)
    (hused : (rbb.blk_set block).status ≠ RT_RBB_BLK_UNUSED) : freeLoop (n + 1) block rbb =
      freeLoop n (block + 1)
        ({ rbb with blk_list := rbb.blk_list.erase block }.setStatus block RT_RBB_BLK_UNUSED) := by
  rw [freeLoop, if_pos hmax, rt_rbb_blk_free, RT_ASSERT_true hused]
  rfl

theorem not_mem_range'_succ {n : Nat} : block ∉ List.range' (block + 1) n := by
  simp

/-- Freeing a range of descriptors, all of which are in use. -/
theorem freeLoop_spec {n : Nat} (hused : ∀ i ∈ List.range' block n, i < rbb.blk_max_num ∧
      (rbb.blk_set i).status ≠ RT_RBB_BLK_UNUSED) :
    ∃ rbb', freeLoop n block rbb = some rbb' ∧ ∀ i, (rbb'.blk_set i).status =
      if i ∈ List.range' block n then RT_RBB_BLK_UNUSED else (rbb.blk_set i).status := by
  induction n generalizing block rbb with
  | zero => exact ⟨rbb, rfl, fun i => by simp⟩
  | succ n ih =>
    rw [List.range'_succ] at hused ⊢
    obtain ⟨hmax, hblock⟩ := hused block List.mem_cons_self
    let rbb1 := { rbb with blk_list := rbb.blk_list.erase block }.setStatus block RT_RBB_BLK_UNUSED
    have hrest : ∀ i ∈ List.range' (block + 1) n, i < rbb1.blk_max_num ∧
        (rbb1.blk_set i).status ≠ RT_RBB_BLK_UNUSED := by
      intro i hi
      have hne : i ≠ block := fun heq => not_mem_range'_succ (heq ▸ hi)
      rw [RbbSystem.setStatus_status, if_neg hne]
      exact hused i (List.mem_cons_of_mem _ hi)
    obtain ⟨rbb', hs, hstatus⟩ := ih hrest
    refine ⟨rbb', (freeLoop_succ hmax hblock).trans hs, fun i => ?_⟩
    rw [hstatus, RbbSystem.setStatus_status]
    by_cases hi : i = block
    · simp [hi]
    · simp [hi]

/-- The loop asserts that every descriptor of the range is in use. -/
theorem freeLoop_used {n : Nat} (hs : freeLoop n block rbb = some rbb') :
    ∀ i ∈ List.range' block n, i < rbb.blk_max_num ∧ (rbb.blk_set i).status ≠ RT_RBB_BLK_UNUSED := by
  induction n generalizing block rbb with
  | zero => simp
  | succ n ih =>
    obtain ⟨hmax, hs⟩ := Option.ite_none_right_eq_some.mp hs
    obtain ⟨rbb1, hfree, hs⟩ := Option.bind_eq_some_iff.mp hs
    obtain ⟨hblock, rfl⟩ := RbbSystem.rt_rbb_blk_free_eq hfree
    rw [List.range'_succ]
    intro i hi
    rcases List.mem_cons.mp hi with rfl | hi
    · exact ⟨hmax, hblock⟩
    · have hne : i ≠ block := fun heq => not_mem_range'_succ (heq ▸ hi)
      obtain ⟨hlt, hst⟩ := ih hs i hi
      rw [RbbSystem.setStatus_status, if_neg hne] at hst
      exact ⟨hlt, hst⟩

theorem addSizes_eq (rbb : Rbb) (blocks : List Nat) (total : Nat) (h : total < 2 ^ 32) :
    rbb.addSizes blocks total = (total + rbb.blocksSize blocks) % 2 ^ 32 := by
  induction blocks generalizing total with
  | nil => exact (Nat.mod_eq_of_lt h).symm
  | cons block blocks ih =>
    have hlt : add32 total (rbb.blk_set block).size < 2 ^ 32 := Nat.mod_lt _ (by decide)
    show rbb.addSizes blocks (add32 total (rbb.blk_set block).size) = _
    rw [ih _ hlt, add32, Nat.mod_add_mod, Nat.add_assoc]
    rfl

/-- The length of a queue is the sum over its range. -/
theorem lenLoop_eq {n total : Nat} (hmax : ∀ i ∈ List.range' block n, i < rbb.blk_max_num) :
    rbb.lenLoop n block total = some (rbb.addSizes (List.range' block n) total) := by
  induction n generalizing block total with
  | zero => rfl
  | succ n ih =>
    rw [List.range'_succ] at hmax ⊢
    rw [lenLoop, if_pos (hmax block List.mem_cons_self),
      ih fun i hi => hmax i (List.mem_cons_of_mem _ hi)]
    rfl

/-! ### The claimed extraction, and when it happens -/

theorem blocksSize_perm {blocks blocks' : List Nat} (h : blocks.Perm blocks') :
    rbb.blocksSize blocks = rbb.blocksSize blocks' :=
  (h.map _).sum_nat

theorem takeAll_blocksSize (rbb : Rbb) (taken blocks : List Nat) :
    (rbb.takeAll taken).blocksSize blocks = rbb.blocksSize blocks := by
  have hsize : ∀ i, ((rbb.takeAll taken).blk_set i).size = (rbb.blk_set i).size := by
    intro i
    rw [takeAll_blk]
    split <;> rfl
  simp only [blocksSize, hsize]

theorem removed_self (rbb : Rbb) : removed rbb rbb = [] :=
  List.filter_eq_nil_iff.mpr fun i hi => by simpa using hi

/-- No block was put. -/
theorem extracted_none {len : Nat} {blk_queue : RbbBlkQueue} :
    Extracted rbb rbb len blk_queue 0 ↔ blk_queue.blk_num = 0 := by
  constructor
  · intro h
    obtain ⟨rbb', hs, hstatus⟩ := h.freed
    by_contra hne
    -- the first descriptor would become unused
    have hin : blk_queue.blocks ∈ List.range' blk_queue.blocks blk_queue.blk_num := by
      simp
      omega
    obtain ⟨-, hused⟩ := freeLoop_used hs _ hin
    obtain ⟨rbb'', hs', hstatus'⟩ := freeLoop_spec (freeLoop_used hs)
    obtain rfl := Option.some.inj (hs.symm.trans hs')
    have hunused := hstatus' blk_queue.blocks
    rw [if_pos hin, hstatus, removed_self, if_neg (List.not_mem_nil)] at hunused
    exact hused hunused
  · intro h
    refine ⟨Nat.zero_le _, by rw [removed_self]; rfl, ?_, by rw [removed_self]; exact .nil, rbb, ?_, fun i => ?_⟩
    · rw [rt_rbb_blk_queue_len, h]
      rfl
    · rw [rt_rbb_blk_queue_free, h]
      rfl
    · rw [removed_self, if_neg (List.not_mem_nil)]

/-- Some blocks were taken. -/
theorem extracted_takes {len total first : Nat} {skipped run rest : List Nat} (h : rbb.Listed)
    (hlen : len < 2 ^ 32) (hlist : rbb.blk_list = skipped ++ (first :: run ++ rest)) :
    Extracted rbb (rbb.takeAll (first :: run)) len ⟨first, run.length + 1⟩ total ↔
      total ≤ len ∧ total = rbb.blocksSize (first :: run) ∧
      ((first :: run).IsChain fun a b => (rbb.blk_set a).span.stop = (rbb.blk_set b).buf) ∧
      (first :: run).Perm (List.range' first (run.length + 1)) := by
  have hremoved := removed_takeAll h.nodup hlist
  have hnd : (first :: run).Nodup :=
    (List.nodup_append.mp (List.nodup_append.mp (hlist ▸ h.nodup)).2.1).1
  constructor
  · intro he
    obtain ⟨rbb', hs, hstatus⟩ := he.freed
    rw [hremoved] at hstatus
    refine ⟨he.bounded, hremoved ▸ he.sum, hremoved ▸ he.contiguous, ?_⟩
    -- what is freed was taken
    have hsub : List.range' first (run.length + 1) ⊆ first :: run := by
      intro i hi
      obtain ⟨-, hused⟩ := freeLoop_used hs i hi
      obtain ⟨rbb'', hs', hstatus'⟩ := freeLoop_spec (freeLoop_used hs)
      obtain rfl := Option.some.inj (hs.symm.trans hs')
      have hunused := hstatus' i
      rw [if_pos hi, hstatus] at hunused
      by_contra hnot
      rw [if_neg hnot] at hunused
      exact hused hunused
    refine ((List.subperm_of_subset (List.nodup_range' ..) hsub).perm_of_length_le ?_).symm
    simp
  · rintro ⟨hbounded, hsum, hcontiguous, hperm⟩
    have hmem : ∀ i, i ∈ List.range' first (run.length + 1) ↔ i ∈ first :: run := fun i =>
      hperm.mem_iff.symm
    have hused : ∀ i ∈ List.range' first (run.length + 1), i < (rbb.takeAll (first :: run)).blk_max_num ∧
        ((rbb.takeAll (first :: run)).blk_set i).status ≠ RT_RBB_BLK_UNUSED := by
      intro i hi
      have hi := (hmem i).mp hi
      have hlisted : i ∈ rbb.blk_list := by
        rw [hlist]
        exact List.mem_append_right _ (List.mem_append_left _ hi)
      rw [takeAll_max, takeAll_blk, if_pos hi]
      exact ⟨(h.used i hlisted).1, RbbStatus.noConfusion⟩
    obtain ⟨rbb', hs, hstatus⟩ := freeLoop_spec hused
    refine ⟨hbounded, hremoved.symm ▸ hsum, ?_, hremoved.symm ▸ hcontiguous, rbb', hs, fun i => ?_⟩
    · rw [rt_rbb_blk_queue_len, lenLoop_eq fun i hi => (hused i hi).1, addSizes_eq _ _ _ (by decide),
        takeAll_blocksSize, ← blocksSize_perm hperm, ← hsum, Nat.zero_add, Nat.mod_eq_of_lt (by omega)]
    · rw [hstatus, hremoved]
      simp only [hmem]

/-- The walk from the first block that was put. -/
theorem queue_get_first {len first : Nat} {skipped nodes : List Nat}
    (hlist : rbb.blk_list = skipped ++ first :: nodes)
    (hskipped : ∀ i ∈ skipped, (rbb.blk_set i).status ≠ RT_RBB_BLK_PUT)
    (hput : (rbb.blk_set first).status = RT_RBB_BLK_PUT) :
    rbb.rt_rbb_blk_queue_get len =
      queueLoop len nodes (rbb.take first) [first] (add32 0 (rbb.blk_set first).size) := by
  rw [rt_rbb_blk_queue_get, hlist, queueLoop_skips _ _ _ hskipped, queueLoop]
  simp only [List.getLast?_nil, if_pos hput]

theorem agrees_take (rbb : Rbb) {first : Nat} {nodes : List Nat} (hnot : first ∉ nodes) :
    Agrees rbb (rbb.take first) nodes := by
  have hself : Agrees rbb rbb (first :: nodes) := ⟨fun _ => rfl, fun _ => rfl, fun _ _ => rfl⟩
  exact hself.take hnot

/-- Where the promise is kept, what was taken is ready. -/
theorem Extracted.ready {len first : Nat} {skipped nodes : List Nat} {blk_queue : RbbBlkQueue}
    (h : rbb.Listed) (hlen : len < 2 ^ 32) (hlist : rbb.blk_list = skipped ++ first :: nodes)
    (hskipped : ∀ i ∈ skipped, (rbb.blk_set i).status ≠ RT_RBB_BLK_PUT)
    (hput : (rbb.blk_set first).status = RT_RBB_BLK_PUT)
    (he : Extracted rbb (rbb.blkQueueGet len blk_queue).1 len (rbb.blkQueueGet len blk_queue).2.1
      (rbb.blkQueueGet len blk_queue).2.2) : rbb.QueueReady len blk_queue := by
  obtain ⟨hnot, hnd⟩ := List.nodup_cons.mp (List.nodup_append.mp (hlist ▸ h.nodup)).2.1
  obtain ⟨run, rest, rfl, heq, hrun, hends⟩ := queueLoop_takes len [first] first
    (add32 0 (rbb.blk_set first).size) (agrees_take rbb hnot) hnd rfl
  rw [blkQueueGet, queue_get_first hlist hskipped hput, heq] at he
  obtain ⟨hbounded, hsum, hcontiguous, hperm⟩ := (extracted_takes h hlen hlist).mp he
  refine .inr ⟨skipped, first, run, rest, ⟨hlist, hskipped, fun i hi => ?_, hcontiguous,
    hsum ▸ hbounded, fun last hl next hn => ?_⟩, hperm⟩
  · rcases List.mem_cons.mp hi with rfl | hi
    · exact hput
    · exact hrun i hi
  · rw [← hsum]
    exact hends last hl next hn

/-- Blocks that are ready are taken as promised. -/
theorem Front.extracted {len first : Nat} {skipped run rest : List Nat} {blk_queue : RbbBlkQueue}
    (h : rbb.Listed) (hlen : len < 2 ^ 32) (hf : rbb.Front len skipped (first :: run) rest)
    (hperm : (first :: run).Perm (List.range' first (run.length + 1))) :
    Extracted rbb (rbb.blkQueueGet len blk_queue).1 len (rbb.blkQueueGet len blk_queue).2.1
      (rbb.blkQueueGet len blk_queue).2.2 := by
  have hlist : rbb.blk_list = skipped ++ first :: (run ++ rest) := hf.list
  obtain ⟨hnot, hnd⟩ := List.nodup_cons.mp (List.nodup_append.mp (hlist ▸ h.nodup)).2.1
  have hsum : rbb.blocksSize (first :: run) = (rbb.blk_set first).size + rbb.blocksSize run := rfl
  have hfits := hf.fits
  have hadd : add32 0 (rbb.blk_set first).size = (rbb.blk_set first).size := by
    rw [add32, Nat.zero_add, Nat.mod_eq_of_lt (by omega)]
  have hrising : (first :: run).IsChain fun a b => (rbb.blk_set a).buf ≤ (rbb.blk_set b).buf :=
    hf.contiguous.imp fun a b (hab : (rbb.blk_set a).span.stop = (rbb.blk_set b).buf) =>
      hab ▸ Nat.le_add_right ..
  have hloop := queueLoop_run hlen [first] first (rbb.blk_set first).size (agrees_take rbb hnot) hnd rfl
    (fun i hi => hf.put i (List.mem_cons_of_mem _ hi)) hrising (by omega) hf.ends
  rw [blkQueueGet, queue_get_first hlist hf.skipped (hf.put first List.mem_cons_self), hadd, hloop]
  exact (extracted_takes h hlen hf.list).mpr ⟨hf.fits, hsum.symm, hf.contiguous, hperm⟩

/-- For every buffer that its users reach, `rt_rbb_blk_queue_get` does what is promised of it if and only
if the blocks to be taken fit, lie one behind the other and have consecutive descriptors. -/
theorem queue_get_extracts (hr : rbbCalls.Reachable rbb) {queue_data_len : Nat}
    (hlen : queue_data_len < 2 ^ 32) (blk_queue : RbbBlkQueue) :
    Extracted rbb (rbb.blkQueueGet queue_data_len blk_queue).1 queue_data_len
        (rbb.blkQueueGet queue_data_len blk_queue).2.1 (rbb.blkQueueGet queue_data_len blk_queue).2.2 ↔
      rbb.QueueReady queue_data_len blk_queue := by
  have h := listed_reachable hr
  rcases first_put rbb with hnone | ⟨skipped, first, nodes, hlist, hskipped, hput⟩
  · have hloop : rbb.rt_rbb_blk_queue_get queue_data_len = (rbb, [], 0) := by
      have hskips := queueLoop_skips queue_data_len 0 [] hnone
      rw [List.append_nil] at hskips
      exact hskips
    rw [blkQueueGet, hloop]
    refine extracted_none.trans ⟨fun hq => .inl ⟨hnone, hq⟩, ?_⟩
    rintro (⟨-, hq⟩ | ⟨skipped, first, run, rest, hf, -⟩)
    · exact hq
    · refine absurd (hf.put first List.mem_cons_self) (hnone first ?_)
      rw [hf.list]
      simp
  · refine ⟨Extracted.ready h hlen hlist hskipped hput, ?_⟩
    rintro (⟨hnone, -⟩ | ⟨skipped', first', run, rest, hf, hperm⟩)
    · refine absurd hput (hnone first ?_)
      rw [hlist]
      simp
    · exact hf.extracted h hlen hperm

/-- A buffer of 64 bytes with four descriptors. -/
def smallBuffer : Rbb := rt_rbb_init 4096 64 (fun _ => ⟨RT_RBB_BLK_UNUSED, 0, 0⟩) 4

theorem smallBuffer_start : rbbCalls.start smallBuffer := ⟨_, _, _, _, rfl⟩

/-- Two blocks are put. -/
def twoPut : List RbbCall := [.alloc 8, .alloc 12, .put 0, .put 1]

theorem queue_get_extracts_two : ∃ rbb, Machine.runs call smallBuffer twoPut = some rbb ∧
    (rbb.blkQueueGet 30 ⟨3, 3⟩).2 = (⟨0, 2⟩, 20) ∧
    Extracted rbb (rbb.blkQueueGet 30 ⟨3, 3⟩).1 30 (rbb.blkQueueGet 30 ⟨3, 3⟩).2.1
      (rbb.blkQueueGet 30 ⟨3, 3⟩).2.2 := by
  have hrun : ∃ rbb, Machine.runs call smallBuffer twoPut = some rbb ∧
      (rbb.blkQueueGet 30 ⟨3, 3⟩).2 = (⟨0, 2⟩, 20) ∧ rbb.blk_list = [0, 1] ∧
      (∀ i ∈ [0, 1], (rbb.blk_set i).status = RT_RBB_BLK_PUT) ∧
      (rbb.blk_set 0).span.stop = (rbb.blk_set 1).buf ∧ rbb.blocksSize [0, 1] ≤ 30 := by
    decide +kernel
  obtain ⟨rbb, hrun, hget, hlist, hput, hnext, hfits⟩ := hrun
  have hr : rbbCalls.Reachable rbb :=
    (Machine.Reachable.start smallBuffer_start).runs (fun _ _ _ hs => hs) hrun
  refine ⟨rbb, hrun, hget, (queue_get_extracts hr (by decide) ⟨3, 3⟩).mpr (.inr ⟨[], 0, [1], [], ?_, ?_⟩)⟩
  · refine ⟨hlist, fun i hi => (by cases hi), hput, ?_, hfits, fun _ _ _ hn => (by cases hn)⟩
    exact List.isChain_cons_cons.mpr ⟨hnext, .singleton _⟩
  · exact .refl _

/-- The size of the first block is not compared with the length asked for. -/
theorem queue_get_extracts_fails : ¬∀ rbb, rbbCalls.Reachable rbb → ∀ queue_data_len < 2 ^ 32,
    ∀ blk_queue, Extracted rbb (rbb.blkQueueGet queue_data_len blk_queue).1 queue_data_len
      (rbb.blkQueueGet queue_data_len blk_queue).2.1 (rbb.blkQueueGet queue_data_len blk_queue).2.2 := by
  have hrun : ∃ rbb, Machine.runs call smallBuffer [.alloc 40, .put 0] = some rbb ∧
      (rbb.blkQueueGet 8 ⟨0, 0⟩).2.2 = 40 := by
    decide +kernel
  obtain ⟨rbb, hrun, htotal⟩ := hrun
  intro h
  have hr : rbbCalls.Reachable rbb :=
    (Machine.Reachable.start smallBuffer_start).runs (fun _ _ _ hs => hs) hrun
  have hbounded := (h rbb hr 8 (by decide) ⟨0, 0⟩).bounded
  rw [htotal] at hbounded
  exact absurd hbounded (by decide)

end Rbb

end Ab32Vg1.Drivers
