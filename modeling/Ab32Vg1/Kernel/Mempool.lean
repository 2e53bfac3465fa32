import Ab32Vg1.Kernel.Waiting
import Ab32Vg1.ProofKit.LinkedList
import Ab32Vg1.ProofKit.WordMemory

/-! The memory pool of `mempool.c`.  The links of the free list are kept in the blocks: a block is a
word, which holds the link or the owner, and the memory behind it that is handed out. -/

namespace Ab32Vg1.Kernel

open ProofKit Rtos

namespace Rtos

/-- `rt_list_insert_after` on a list of waiting threads: the thread goes before all others. -/
def insertAfter (s : Rtos) (l : Nat) (t : Tid) : Rtos :=
  { s with suspend_thread := Function.update s.suspend_thread l (t :: s.suspend_thread l) }

/-- The part of `rt_mp_alloc` that puts its thread to sleep. -/
def waitFirst (s : Rtos) (l : Nat) (t : Tid) (time : Int) : Option Rtos := do
  let s := s.setThread t fun th => { th with error := RT_EOK }
  let (s, _) ← s.rt_thread_suspend t
  let s := s.insertAfter l t
  if 0 < time then s.rt_timer_start t time.toNat else some s

end Rtos

/-- `struct rt_mempool` at `address`; `suspend_thread` names its list of waiting threads. -/
structure MemPool where
  address : Nat
  start_address : Nat
  size : Nat
  block_size : Nat
  block_list : Nat
  block_total_count : Nat
  block_free_count : Nat
  suspend_thread : Nat
  deriving DecidableEq, Repr

namespace MemPool

/-- Where block number `offset` begins. -/
def blockAt (block_ptr block_size offset : Nat) : Nat :=
  add32 block_ptr (offset * add32 block_size 4 % 2 ^ 32)

/-- The stores that build the free list, each with its address and the link, in order. -/
def linkStores (block_ptr block_size block_total_count : Nat) : List (Nat × Nat) :=
  (List.range block_total_count).map (fun offset =>
    (blockAt block_ptr block_size offset, blockAt block_ptr block_size (offset + 1))) ++
  [(blockAt block_ptr block_size (sub32 block_total_count 1), 0)]

/-- The pool that `rt_mp_init` sets up at `mp`, and its stores to the memory of the pool. -/
def rt_mp_init (mp suspend_thread start size block_size : Nat) : Option (MemPool × List (Nat × Nat)) := do
  RT_ASSERT (start ≠ 0)
  RT_ASSERT (0 < size ∧ 0 < block_size)
  let size := RT_ALIGN_DOWN size RT_ALIGN_SIZE
  let block_size := RT_ALIGN block_size RT_ALIGN_SIZE
  let block_total_count := size / add32 block_size 4
  let pool : MemPool :=
    { address := mp
      start_address := start
      size := size
      block_size := block_size
      block_list := start
      block_total_count := block_total_count
      block_free_count := block_total_count
      suspend_thread := suspend_thread }
  return (pool, linkStores start block_size block_total_count)

/-- How `rt_mp_alloc` ends, or that its thread is suspended and calls `rt_schedule`. -/
inductive AllocOutcome where
  | block (ptr : Nat)
  | null
  | suspended
  deriving DecidableEq, Repr

/-- The loop of `rt_mp_alloc` up to `rt_schedule`, and what follows the loop. -/
def rt_mp_alloc (mp : MemPool) (words : Words) (s : Rtos) (time : Int) :
    Option (Rtos × MemPool × Words × AllocOutcome) :=
  if mp.block_free_count = 0 then
    if time = 0 then some (s, mp, words, .null)
    else do
      let thread ← s.rt_current_thread
      let s ← s.waitFirst mp.suspend_thread thread time
      return (s, mp, words, .suspended)
  else do
    RT_ASSERT (mp.block_list ≠ 0)
    let block_ptr := mp.block_list
    let mp := { mp with
      block_free_count := mp.block_free_count - 1
      block_list := words block_ptr }
    return (s, mp, words.set block_ptr mp.address, .block (add32 block_ptr 4))

/-- The time that is left when `elapsed` ticks have passed. -/
def timeLeft (time : Int) (elapsed : Nat) : Int :=
  if 0 < time then max 0 (Int.bmod (time - elapsed) (2 ^ 32)) else time

/-- `rt_mp_alloc` when its thread goes on after `rt_schedule`. -/
def allocResumed (mp : MemPool) (words : Words) (s : Rtos) (thread : Tid) (time : Int)
    (elapsed : Nat) : Option (Rtos × MemPool × Words × AllocOutcome) :=
  if (s.threads thread).error ≠ RT_EOK then some (s, mp, words, .null)
  else mp.rt_mp_alloc words s (timeLeft time elapsed)

/-- `rt_mp_free` up to its call of `rt_schedule`.  The word before the block leads to the pool. -/
def rt_mp_free (mp : MemPool) (words : Words) (s : Rtos) (block : Nat) :
    Option (Rtos × MemPool × Words) :=
  if block = 0 then some (s, mp, words)
  else if words (sub32 block 4) = mp.address then do
    let block_ptr := sub32 block 4
    let words := words.set block_ptr mp.block_list
    let mp := { mp with block_free_count := mp.block_free_count + 1, block_list := block_ptr }
    match s.suspend_thread mp.suspend_thread with
    | [] => return (s, mp, words)
    | thread :: _ =>
      let s := s.setThread thread fun th => { th with error := RT_EOK }
      let (s, _) ← s.rt_thread_resume thread
      return (s, mp, words)
  else none

end MemPool

/-! ### The machine -/

/-- A pool with its memory, and the threads that use it: `waiting` holds the waiting time and the tick
at the start of the wait of a thread that waits in `rt_mp_alloc` or has yet to go on in it.  The list of
the blocks that are handed out is not in the code. -/
structure MpSystem where
  os : Rtos
  mp : MemPool
  words : Words
  waiting : Tid → Option (Int × Nat)
  held : List Nat

inductive MpStep where
  | alloc (caller : Option Tid) (time : Int) (tick : Nat)
  | allocResumed (t : Tid) (tick : Nat)
  | free (block : Nat)
  | store (words : Words)
  | timeout (t : Tid)
  | schedule
  | other (os : Rtos)

namespace MpSystem

/-- The threads in the list of the pool. -/
def suspended (c : MpSystem) : List Tid := c.os.suspend_thread c.mp.suspend_thread

/-- The system after a part of `rt_mp_alloc`. -/
def afterAlloc (c : MpSystem) (caller : Option Tid) (time : Int) (tick : Nat) :
    Rtos × MemPool × Words × MemPool.AllocOutcome → MpSystem
  | (os, mp, words, .block ptr) =>
    { os := os, mp := mp, words := words, held := ptr :: c.held
      waiting := fun t => if caller = some t then none else c.waiting t }
  | (os, mp, words, .null) =>
    { c with
      os := os, mp := mp, words := words
      waiting := fun t => if caller = some t then none else c.waiting t }
  | (os, mp, words, .suspended) =>
    { c with
      os := os, mp := mp, words := words
      waiting := fun t => if caller = some t then some (time, tick) else c.waiting t }

def next (c : MpSystem) : MpStep → Option MpSystem
  | .alloc caller time tick =>
    if MayCall c.os (fun t => (c.waiting t).isSome) time caller then
      (c.mp.rt_mp_alloc c.words c.os time).map (c.afterAlloc caller time tick)
    else none
  | .allocResumed t tick =>
    match c.waiting t with
    | some (time, before_sleep) =>
      if Runs c.os t then
        (c.mp.allocResumed c.words c.os t time (sub32 tick before_sleep)).map
          (c.afterAlloc (some t) (MemPool.timeLeft time (sub32 tick before_sleep)) tick)
      else none
    | none => none
  | .free block =>
    if block = 0 ∨ block ∈ c.held then
      (c.mp.rt_mp_free c.words c.os block).map fun (os, mp, words) =>
        { c with os := os, mp := mp, words := words, held := c.held.erase block }
    else none
  | .timeout t =>
    if (c.waiting t).isSome ∧ (c.os.threads t).thread_timer.activated = true then
      (c.os.timerExpires t).map fun os => { c with os := os }
    else none
  | .schedule => c.os.rt_schedule.map fun os => { c with os := os }
  | .store _ => none
  | .other _ => none

/-- A pool that has just been initialised: the stores are made, and nobody has used it. -/
structure Fresh (pool : MemPool) (stores : List (Nat × Nat)) (c : MpSystem) : Prop where
  inv : Inv c.os
  mp : c.mp = pool
  words : ∃ words : Words, c.words = stores.foldl (fun m store => m.set store.1 store.2) words
  suspended : c.suspended = []
  waiting : ∀ t, c.waiting t = none
  held : c.held = []

/-- A thread that has been resumed by `rt_mp_free` and has not gone on. -/
def Resumed (c : MpSystem) (t : Tid) : Prop :=
  (c.waiting t).isSome ∧ t ∉ c.suspended ∧ (c.os.threads t).error = RT_EOK

/-- A block is written by whoever holds it. -/
def Written (c : MpSystem) (words : Words) : Prop :=
  ∀ a, words a ≠ c.words a → ∃ p ∈ c.held, p ≤ a ∧ a < p + c.mp.block_size

end MpSystem

def mpMachine (pool : MemPool) (stores : List (Nat × Nat)) : Machine MpSystem MpStep where
  start := MpSystem.Fresh pool stores
  step c l c' :=
    c.next l = some c' ∨
    (∃ words, l = .store words ∧ c.Written words ∧ c' = { c with words := words }) ∨
    ∃ os, l = .other os ∧ c' = { c with os := os } ∧
      Elsewhere (· = c.mp.suspend_thread) (fun t => (c.waiting t).isSome) c.os os

/-! ### Waiting at the head of a list -/

section

variable {s s' : Rtos} {t : Tid} {l : Nat} {time : Int}

/-- The order of the waiting threads is free. -/
theorem Inv.reorder {lists : Nat → List Tid} (h : Inv s)
    (hperm : ∀ l, (lists l).Perm (s.suspend_thread l)) : Inv { s with suspend_thread := lists } := by
  have hmem : ∀ u l, u ∈ lists l ↔ u ∈ s.suspend_thread l := fun u l => (hperm l).mem_iff
  refine ⟨fun u _ => ?_, fun u hu => by simp at hu, h.group, h.table_nodup,
    fun l => (hperm l).nodup_iff.mpr (h.suspend_nodup l), fun u l l' hl hl' => ?_, h.defunct_nodup⟩
  · obtain ⟨h1, h2, h3, h4, h5, h6, h7, h8, h9, h10, h11⟩ := h.thread u (by simp)
    exact ⟨h1, h2, h3, h4, h5, fun l hl => h6 l ((hmem u l).mp hl), h7, h8, h9, h10, h11⟩
  · exact h.suspend_unique u l l' ((hmem u l).mp hl) ((hmem u l').mp hl')

theorem Waits.reorder {lists : Nat → List Tid} (h : Waits s s' l t)
    (hperm : ∀ l, (lists l).Perm (s'.suspend_thread l)) :
    Waits s { s' with suspend_thread := lists } l t :=
  ⟨h.inv.reorder hperm, fun l' u => (hperm l').mem_iff.trans (h.mem l' u), h.other, h.error,
    h.event_set, h.event_info⟩

theorem insertAfter_perm (s : Rtos) (l : Nat) (t : Tid) (l' : Nat) :
    ((s.insertAfter l t).suspend_thread l').Perm ((s.insertWaiting l t .fifo).suspend_thread l') := by
  show (Function.update s.suspend_thread l (t :: s.suspend_thread l) l').Perm
    (Function.update s.suspend_thread l (s.suspend_thread l ++ [t]) l')
  by_cases hl : l' = l
  · subst hl
    rw [Function.update_self, Function.update_self]
    exact (List.perm_append_singleton t (s.suspend_thread l')).symm
  · rw [Function.update_of_ne hl, Function.update_of_ne hl]

/-- A thread that waits at the head of a list waits as one at its end does. -/
theorem waitFirst_waits (h : Inv s) (hrun : (s.threads t).stat = .RUNNING)
    (hs : s.waitFirst l t time = some s') : Waits s s' l t := by
  have hst : (s.threads t).stat = .READY ∨ (s.threads t).stat = .RUNNING := Or.inr hrun
  let s1 := putToSleep (s.setThread t fun th => { th with error := RT_EOK }) t
  have hsleep : (s.setThread t fun th => { th with error := RT_EOK }).rt_thread_suspend t =
      some (s1, RT_EOK) := rt_thread_suspend_eq (resetError_inv h RT_EOK) (by simpa using hst)
  have hwait : s.waitOn l t .fifo time =
      some { s' with suspend_thread := (s1.insertWaiting l t .fifo).suspend_thread } ∧
      s'.suspend_thread = (s1.insertAfter l t).suspend_thread := by
    rw [waitOn_eq h hst]
    simp only [waitFirst, hsleep, Option.bind_eq_bind, Option.bind_some] at hs
    by_cases htime : 0 < time
    · rw [if_pos htime] at hs ⊢
      obtain ⟨hmax, hs⟩ := RT_ASSERT_bind_eq_some.mp hs
      obtain rfl := Option.some.inj hs
      exact ⟨RT_ASSERT_bind_eq_some.mpr ⟨hmax, rfl⟩, rfl⟩
    · rw [if_neg htime] at hs ⊢
      obtain rfl := Option.some.inj hs
      exact ⟨rfl, rfl⟩
  have hw := waitOn_waits h hrun hwait.1
  have hperm : ∀ l', (s'.suspend_thread l').Perm ((s1.insertWaiting l t .fifo).suspend_thread l') := by
    rw [hwait.2]
    exact insertAfter_perm s1 l t
  exact hw.reorder hperm

end

end Ab32Vg1.Kernel
