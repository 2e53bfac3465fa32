import Ab32Vg1.Kernel.Def
import Ab32Vg1.ProofKit.Spans
import Ab32Vg1.ProofKit.Transition

/-! The ring block buffer of `ringblk_buf.c`: blocks of a buffer are handed out in the order of their
addresses, and the space that is free is told from the first and the last block of a list. -/

namespace Ab32Vg1.Drivers

open ProofKit Kernel

/-- `rt_rbb_status_t`. -/
inductive RbbStatus
  | RT_RBB_BLK_UNUSED
  | RT_RBB_BLK_INITED
  | RT_RBB_BLK_PUT
  | RT_RBB_BLK_GET
  deriving DecidableEq, Repr

open RbbStatus

/-- `struct rt_rbb_blk` without its list node; the size has 24 bits. -/
structure RbbBlk where
  status : RbbStatus
  size : Nat
  buf : Nat

/-- The addresses of a block. -/
def RbbBlk.span (blk : RbbBlk) : Span := ⟨blk.buf, blk.size⟩

/-- `struct rt_rbb`; `blk_list` holds the indices of the listed descriptors. -/
structure Rbb where
  buf : Nat
  buf_size : Nat
  blk_set : Nat → RbbBlk
  blk_max_num : Nat
  blk_list : List Nat

/-- `struct rt_rbb_blk_queue`; `blocks` is the index of the first descriptor. -/
structure RbbBlkQueue where
  blocks : Nat
  blk_num : Nat
  deriving DecidableEq, Repr

namespace Rbb

/-- `rt_rbb_init`. -/
def rt_rbb_init (buf buf_size : Nat) (block_set : Nat → RbbBlk) (blk_max_num : Nat) : Rbb where
  buf := buf
  buf_size := buf_size
  blk_set i := if i < blk_max_num then { block_set i with status := RT_RBB_BLK_UNUSED }
    else block_set i
  blk_max_num := blk_max_num
  blk_list := []

def setStatus (rbb : Rbb) (block : Nat) (status : RbbStatus) : Rbb :=
  { rbb with
    blk_set := Function.update rbb.blk_set block { rbb.blk_set block with status := status } }

def find_empty_blk_in_set (rbb : Rbb) : Option Nat :=
  (List.range rbb.blk_max_num).find? fun i => (rbb.blk_set i).status = RT_RBB_BLK_UNUSED

/-- A new block at the end of the list. -/
def link (rbb : Rbb) (new_rbb buf blk_size : Nat) : Rbb :=
  { rbb with
    blk_set := Function.update rbb.blk_set new_rbb ⟨RT_RBB_BLK_INITED, blk_size % 2 ^ 24, buf⟩
    blk_list := rbb.blk_list ++ [new_rbb] }

/-- `rt_rbb_blk_alloc` after it has found an unused descriptor. -/
def allocIn (rbb : Rbb) (new_rbb blk_size : Nat) : Rbb × Option Nat :=
  match rbb.blk_list.head?, rbb.blk_list.getLast? with
  | some head, some tail =>
    let head := rbb.blk_set head
    let tail := rbb.blk_set tail
    if head.buf ≤ tail.buf then
      let empty1 := sub32 (add32 rbb.buf rbb.buf_size) (add32 tail.buf tail.size)
      let empty2 := sub32 head.buf rbb.buf
      if empty1 ≥ blk_size then
        (rbb.link new_rbb (add32 tail.buf tail.size) blk_size, some new_rbb)
      else if empty2 ≥ blk_size then (rbb.link new_rbb rbb.buf blk_size, some new_rbb)
      else (rbb, none)
    else
      let empty1 := sub32 head.buf (add32 tail.buf tail.size)
      if empty1 ≥ blk_size then
        (rbb.link new_rbb (add32 tail.buf tail.size) blk_size, some new_rbb)
      else (rbb, none)
  | _, _ => (rbb.link new_rbb rbb.buf blk_size, some new_rbb)

/-- `rt_rbb_blk_alloc`: the index of the descriptor that it returns. -/
def rt_rbb_blk_alloc (rbb : Rbb) (blk_size : Nat) : Option (Rbb × Option Nat) := do
  RT_ASSERT (blk_size < 2 ^ 24)
  match rbb.find_empty_blk_in_set with
  | some new_rbb =>
    if rbb.blk_list.length < rbb.blk_max_num then return rbb.allocIn new_rbb blk_size
    else return (rbb, none)
  | none => return (rbb, none)

def rt_rbb_blk_put (rbb : Rbb) (block : Nat) : Option Rbb := do
  RT_ASSERT ((rbb.blk_set block).status = RT_RBB_BLK_INITED)
  return rbb.setStatus block RT_RBB_BLK_PUT

def rt_rbb_blk_get (rbb : Rbb) : Rbb × Option Nat :=
  match rbb.blk_list.find? fun i => (rbb.blk_set i).status = RT_RBB_BLK_PUT with
  | some block => (rbb.setStatus block RT_RBB_BLK_GET, some block)
  | none => (rbb, none)

def rt_rbb_blk_free (rbb : Rbb) (block : Nat) : Option Rbb := do
  RT_ASSERT ((rbb.blk_set block).status ≠ RT_RBB_BLK_UNUSED)
  return { rbb with blk_list := rbb.blk_list.erase block }.setStatus block RT_RBB_BLK_UNUSED

/-- A block leaves the list for a queue. -/
def take (rbb : Rbb) (block : Nat) : Rbb :=
  { rbb with blk_list := rbb.blk_list.erase block }.setStatus block RT_RBB_BLK_GET

/-- The loop of `rt_rbb_blk_queue_get` over the nodes left.  `taken` are the blocks removed so far, the
last of them is `last_block`. -/
def queueLoop (queue_data_len : Nat) : (nodes : List Nat) → (rbb : Rbb) → (taken : List Nat) →
    (data_total_size : Nat) → Rbb × List Nat × Nat
  | [], rbb, taken, data_total_size => (rbb, taken, data_total_size)
  | node :: nodes, rbb, taken, data_total_size =>
    let block := rbb.blk_set node
    match taken.getLast? with
    | none =>
      if block.status = RT_RBB_BLK_PUT then
        queueLoop queue_data_len nodes (rbb.take node) [node] (add32 data_total_size block.size)
      else queueLoop queue_data_len nodes rbb [] data_total_size
    | some last_block =>
      if block.status ≠ RT_RBB_BLK_PUT ∨ (rbb.blk_set last_block).buf > block.buf ∨
          add32 data_total_size block.size > queue_data_len then
        (rbb, taken, data_total_size)
      else
        queueLoop queue_data_len nodes (rbb.take node) (taken ++ [node])
          (add32 data_total_size block.size)

/-- `rt_rbb_blk_queue_get`: the blocks that it takes out of the list, and the size that it returns.
The queue names the first of them and how many they are. -/
def rt_rbb_blk_queue_get (rbb : Rbb) (queue_data_len : Nat) : Rbb × List Nat × Nat :=
  queueLoop queue_data_len rbb.blk_list rbb [] 0

/-- The loop of `rt_rbb_blk_queue_free` from the descriptor `block` on, `n` times.  There is none
past the end of the set. -/
def freeLoop : (n block : Nat) → (rbb : Rbb) → Option Rbb
  | 0, _, rbb => some rbb
  | n + 1, block, rbb =>
    if block < rbb.blk_max_num then do
      let rbb ← rbb.rt_rbb_blk_free block
      freeLoop n (block + 1) rbb
    else none

def rt_rbb_blk_queue_free (rbb : Rbb) (blk_queue : RbbBlkQueue) : Option Rbb :=
  freeLoop blk_queue.blk_num blk_queue.blocks rbb

end Rbb

/-! ### The machine -/

/-- A queue that a user holds, with the blocks that it was given. -/
structure HeldQueue where
  queue : RbbBlkQueue
  members : List Nat

/-- The buffer and its users: `live` are the blocks allocated and not yet freed, `queues` are the
queues that are held. -/
structure RbbSystem where
  rbb : Rbb
  live : Nat → Bool
  queues : List HeldQueue

inductive RbbStep where
  | alloc (blk_size : Nat)
  | put (block : Nat)
  | get
  | free (block : Nat)
  | queueGet (queue_data_len : Nat)
  | queueFree (k : Nat)

namespace RbbSystem

def span (c : RbbSystem) (i : Nat) : Span := (c.rbb.blk_set i).span

/-- A step of the users.  They put and free only blocks that are theirs; a queue of which a block was
freed by itself is not freed as a queue any more. -/
def step (c : RbbSystem) : RbbStep → Option RbbSystem
  | .alloc blk_size =>
    if 0 < blk_size then
      (c.rbb.rt_rbb_blk_alloc blk_size).map fun (rbb, new_rbb) =>
        { c with
          rbb := rbb
          live := match new_rbb with
            | some i => Function.update c.live i true
            | none => c.live }
    else none
  | .put block =>
    if c.live block then (c.rbb.rt_rbb_blk_put block).map fun rbb => { c with rbb := rbb }
    else none
  | .get => some { c with rbb := c.rbb.rt_rbb_blk_get.1 }
  | .free block =>
    if c.live block then
      (c.rbb.rt_rbb_blk_free block).map fun rbb =>
        { rbb := rbb
          live := Function.update c.live block false
          queues := c.queues.filter fun q => block ∉ q.members }
    else none
  | .queueGet queue_data_len =>
    let (rbb, taken, _) := c.rbb.rt_rbb_blk_queue_get queue_data_len
    match taken.head? with
    | some first => some { c with rbb := rbb, queues := ⟨⟨first, taken.length⟩, taken⟩ :: c.queues }
    | none => some { c with rbb := rbb }
  | .queueFree k => do
    let held ← c.queues[k]?
    let rbb ← c.rbb.rt_rbb_blk_queue_free held.queue
    return {
      rbb := rbb
      live := fun i => c.live i && decide (i ∉ held.members)
      queues := c.queues.eraseIdx k }

/-- The block lies where `rt_rbb_blk_alloc` sees no free space: between the first and the last listed
block. -/
def spared (rbb : Rbb) (s : Span) : Bool :=
  match rbb.blk_list.head?, rbb.blk_list.getLast? with
  | some head, some tail =>
    let head := (rbb.blk_set head).span
    let tail := (rbb.blk_set tail).span
    if head.start ≤ tail.start then decide (head.start ≤ s.start ∧ s.stop ≤ tail.stop)
    else decide (s.stop ≤ tail.stop ∨ head.start ≤ s.start)
  | _, _ => false

/-- The steps after which the code keeps the blocks apart.  An allocation needs the blocks that queues
hold to lie outside the free space that the list shows, and the first one to fit the buffer; a queue
is taken from a list whose neighbours to be got have neighbouring descriptors. -/
def Sound (c : RbbSystem) : RbbStep → Prop
  | .alloc blk_size =>
    (c.rbb.blk_list = [] → blk_size ≤ c.rbb.buf_size) ∧
      ∀ i < c.rbb.blk_max_num, (c.rbb.blk_set i).status = RT_RBB_BLK_GET → i ∉ c.rbb.blk_list →
        spared c.rbb (c.span i) = true
  | .queueGet _ =>
    c.rbb.blk_list.IsChain fun a b => (c.rbb.blk_set a).status = RT_RBB_BLK_PUT →
      (c.rbb.blk_set b).status = RT_RBB_BLK_PUT → b = a + 1
  | _ => True

instance (c : RbbSystem) : (l : RbbStep) → Decidable (c.Sound l)
  | .alloc _ => inferInstanceAs (Decidable (_ ∧ _))
  | .queueGet _ => inferInstanceAs (Decidable (List.IsChain (fun a b =>
      (c.rbb.blk_set a).status = RT_RBB_BLK_PUT → (c.rbb.blk_set b).status = RT_RBB_BLK_PUT →
        b = a + 1) c.rbb.blk_list))
  | .put _ | .get | .free _ | .queueFree _ => inferInstanceAs (Decidable True)

/-- A buffer that has just been initialised. -/
structure Fresh (c : RbbSystem) : Prop where
  init : ∃ buf buf_size block_set blk_max_num, buf + buf_size ≤ 2 ^ 32 ∧
    c.rbb = Rbb.rt_rbb_init buf buf_size block_set blk_max_num
  live : ∀ i, c.live i = false
  queues : c.queues = []

end RbbSystem

def rbbMachine : Machine RbbSystem RbbStep where
  start := RbbSystem.Fresh
  step c l c' := c.step l = some c'

/-- The blocks that are allocated and not yet freed lie in the buffer and do not overlap. -/
structure RbbContract (c : RbbSystem) : Prop where
  inside : ∀ i, c.live i = true → c.rbb.buf ≤ (c.span i).start ∧
    (c.span i).stop ≤ c.rbb.buf + c.rbb.buf_size
  disjoint : ∀ i j, c.live i = true → c.live j = true → i ≠ j → (c.span i).Disjoint (c.span j)

end Ab32Vg1.Drivers
