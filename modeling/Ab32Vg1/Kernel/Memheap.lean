import Ab32Vg1.Kernel.Def
import Ab32Vg1.ProofKit.WordMemory

/-! The memory heaps of `memheap.c`: a pool whose items form a ring in address order and a list of
the free ones.  Every access to an item is one to an aligned word, so the memory is one of words.
Sizes and addresses are 32-bit words. -/

namespace Ab32Vg1.Kernel

open ProofKit

namespace Memheap

def RT_MEMHEAP_MAGIC : Nat := 0x1ea01ea0

def RT_MEMHEAP_MASK : Nat := 0xfffffffe

def RT_MEMHEAP_USED : Nat := 0x01

def RT_MEMHEAP_FREED : Nat := 0x00

def RT_MEMHEAP_MINIALLOC : Nat := 12

/-- `sizeof(struct rt_memheap_item)` is 24: six words. -/
def RT_MEMHEAP_SIZE : Nat := RT_ALIGN 24 RT_ALIGN_SIZE

/-- The fields of a `struct rt_memheap_item`. -/
inductive Field where
  | magic
  | pool_ptr
  | next
  | prev
  | next_free
  | prev_free
  deriving DecidableEq

def Field.offset : Field → Nat
  | magic => 0
  | pool_ptr => 4
  | next => 8
  | prev => 12
  | next_free => 16
  | prev_free => 20

/-- A `struct rt_memheap` at address `self`, with the memory.  `free_list` is the address of its
`free_header`. -/
structure MemHeap where
  words : Words
  self : Nat
  start_addr : Nat
  pool_size : Nat
  available_size : Nat
  max_used_size : Nat
  block_list : Nat
  free_list : Nat

/-- `item->f` -/
def MemHeap.get (h : MemHeap) (f : Field) (item : Nat) : Nat := h.words (item + f.offset)

/-- `item->f = v` -/
def MemHeap.set (h : MemHeap) (f : Field) (item v : Nat) : MemHeap :=
  { h with words := h.words.set (item + f.offset) v }

/-- The magic word of an item. -/
def magicWord (used : Bool) : Nat :=
  RT_MEMHEAP_MAGIC ||| if used then RT_MEMHEAP_USED else RT_MEMHEAP_FREED

def RT_MEMHEAP_IS_USED (h : MemHeap) (i : Nat) : Prop := h.get .magic i &&& RT_MEMHEAP_USED ≠ 0

instance (h : MemHeap) (i : Nat) : Decidable (RT_MEMHEAP_IS_USED h i) :=
  inferInstanceAs (Decidable (_ ≠ _))

def MEMITEM_SIZE (h : MemHeap) (item : Nat) : Nat :=
  sub32 (sub32 (h.get .next item) item) RT_MEMHEAP_SIZE

/-- An item becomes the first of the free list. -/
def insertFree (h : MemHeap) (item : Nat) : MemHeap :=
  let h := h.set .next_free item (h.get .next_free h.free_list)
  let h := h.set .prev_free item h.free_list
  let h := h.set .prev_free (h.get .next_free h.free_list) item
  h.set .next_free h.free_list item

/-- An item leaves the free list. -/
def removeFree (h : MemHeap) (item : Nat) : MemHeap :=
  let h := h.set .prev_free (h.get .next_free item) (h.get .prev_free item)
  h.set .next_free (h.get .prev_free item) (h.get .next_free item)

def rt_memheap_init (words : Words) (memheap free_header start_addr size : Nat) : MemHeap :=
  let pool_size := RT_ALIGN_DOWN size RT_ALIGN_SIZE
  let available_size := sub32 pool_size (2 * RT_MEMHEAP_SIZE)
  let h : MemHeap :=
    { words
      self := memheap
      start_addr
      pool_size
      available_size
      max_used_size := sub32 pool_size available_size
      block_list := start_addr
      free_list := free_header }
  -- the free list header
  let item := free_header
  let h := ((h.set .magic item (magicWord false)).set .pool_ptr item memheap).set .next item 0
  let h := ((h.set .prev item 0).set .next_free item item).set .prev_free item item
  -- the first big memory block
  let item := start_addr
  let h := ((h.set .magic item (magicWord false)).set .pool_ptr item memheap).set .next item 0
  let h := ((h.set .prev item 0).set .next_free item item).set .prev_free item item
  let h := h.set .next item (add32 (add32 item available_size) RT_MEMHEAP_SIZE)
  let h := h.set .prev item (h.get .next item)
  let h := insertFree h item
  -- the tailer, which prevents block merging
  let item := h.get .next item
  let h := (h.set .magic item (magicWord true)).set .pool_ptr item memheap
  let h := (h.set .next item start_addr).set .prev item start_addr
  (h.set .prev_free item 0).set .next_free item 0

/-- `max_used_size` follows the pool's use. -/
def recordUse (h : MemHeap) : MemHeap :=
  let used := sub32 h.pool_size h.available_size
  { h with max_used_size := if h.max_used_size < used then used else h.max_used_size }

/-- A new free item at `new_ptr`, in the block list behind `header_ptr`. -/
def splitBlock (h : MemHeap) (header_ptr new_ptr : Nat) : MemHeap :=
  let h := (h.set .magic new_ptr (magicWord false)).set .pool_ptr new_ptr h.self
  let h := h.set .prev new_ptr header_ptr
  let h := h.set .next new_ptr (h.get .next header_ptr)
  let h := h.set .prev (h.get .next header_ptr) new_ptr
  h.set .next header_ptr new_ptr

/-- The loop of `rt_memheap_alloc`: the first free item with room, or the list's header. -/
def search (h : MemHeap) (size : Nat) : (fuel header_ptr free_size : Nat) → Option (Nat × Nat)
  | 0, _, _ => none
  | fuel + 1, header_ptr, free_size =>
    if header_ptr ≠ h.free_list ∧ free_size < size then
      let free_size := MEMITEM_SIZE h header_ptr
      search h size fuel
        (if free_size < size then h.get .next_free header_ptr else header_ptr) free_size
    else some (header_ptr, free_size)

/-- The item `header_ptr` leaves the free list for good. -/
def takeFree (h : MemHeap) (header_ptr : Nat) : MemHeap :=
  ((removeFree h header_ptr).set .next_free header_ptr 0).set .prev_free header_ptr 0

/-- The block at `header_ptr` is cut behind `size` bytes, and the rest is free. -/
def takePart (h : MemHeap) (header_ptr size : Nat) : MemHeap :=
  let new_ptr := header_ptr + size + RT_MEMHEAP_SIZE
  let h := insertFree (takeFree (splitBlock h header_ptr new_ptr) header_ptr) new_ptr
  recordUse { h with available_size := sub32 (sub32 h.available_size size) RT_MEMHEAP_SIZE }

/-- The block at `header_ptr` is taken as it is. -/
def takeWhole (h : MemHeap) (header_ptr free_size : Nat) : MemHeap :=
  takeFree (recordUse { h with available_size := sub32 h.available_size free_size }) header_ptr

/-- The size rounded up, and at least the minimum. -/
def alignedSize (size : Nat) : Nat :=
  let size := RT_ALIGN size RT_ALIGN_SIZE
  if size < RT_MEMHEAP_MINIALLOC then RT_MEMHEAP_MINIALLOC else size

def rt_memheap_alloc (fuel : Nat) (h : MemHeap) (size : Nat) : Option (MemHeap × Option Nat) :=
  let size := alignedSize size
  if size < h.available_size then do
    let (header_ptr, free_size) ← search h size fuel (h.get .next_free h.free_list) 0
    if size ≤ free_size then
      let h :=
        if add32 (add32 size RT_MEMHEAP_SIZE) RT_MEMHEAP_MINIALLOC ≤ free_size then
          takePart h header_ptr size
        else takeWhole h header_ptr free_size
      let h := h.set .magic header_ptr (magicWord true)
      return (h, some (header_ptr + RT_MEMHEAP_SIZE))
    else return (h, none)
  else some (h, none)

/-- `header_ptr` absorbs the free item `new_ptr` behind it, which leaves the free list. -/
def mergeNext (h : MemHeap) (header_ptr new_ptr : Nat) : MemHeap :=
  let h := h.set .prev (h.get .next new_ptr) header_ptr
  let h := h.set .next header_ptr (h.get .next new_ptr)
  removeFree h new_ptr

/-- "merge block with previous neighbor" -/
def mergePrev (h : MemHeap) (header_ptr : Nat) : MemHeap :=
  let h := h.set .next (h.get .prev header_ptr) (h.get .next header_ptr)
  h.set .prev (h.get .next header_ptr) (h.get .prev header_ptr)

def rt_memheap_free (h : MemHeap) : (ptr : Option Nat) → Option MemHeap
  | none => some h
  | some ptr => do
    let header_ptr := ptr - RT_MEMHEAP_SIZE
    RT_ASSERT (h.get .magic header_ptr = magicWord true)
    RT_ASSERT (h.get .magic (h.get .next header_ptr) &&& RT_MEMHEAP_MASK = RT_MEMHEAP_MAGIC)
    -- the heap of the item is this one
    RT_ASSERT (h.get .pool_ptr header_ptr = h.self)
    let h := h.set .magic header_ptr (magicWord false)
    let h := { h with available_size := add32 h.available_size (MEMITEM_SIZE h header_ptr) }
    let left := h.get .prev header_ptr
    let merged := ¬RT_MEMHEAP_IS_USED h left
    let h :=
      if merged then
        mergePrev { h with available_size := add32 h.available_size RT_MEMHEAP_SIZE } header_ptr
      else h
    let header_ptr := if merged then left else header_ptr
    let right := h.get .next header_ptr
    let h :=
      if ¬RT_MEMHEAP_IS_USED h right then
        mergeNext { h with available_size := add32 h.available_size RT_MEMHEAP_SIZE } header_ptr right
      else h
    return if merged then h else insertFree h header_ptr

def rt_memcpy (h : MemHeap) (dst src n : Nat) : MemHeap := { h with words := h.words.copy dst src n }

/-- The block at `header_ptr` grows to `newsize` bytes into the free item behind it. -/
def expand (h : MemHeap) (header_ptr oldsize newsize : Nat) : MemHeap :=
  let next_ptr := h.get .next header_ptr
  let h := recordUse { h with available_size := sub32 h.available_size (sub32 newsize oldsize) }
  let h := removeFree h next_ptr
  let h := h.set .prev (h.get .next next_ptr) (h.get .prev next_ptr)
  let h := h.set .next (h.get .prev next_ptr) (h.get .next next_ptr)
  let next_ptr := add32 (header_ptr + RT_MEMHEAP_SIZE) newsize
  insertFree (splitBlock h header_ptr next_ptr) next_ptr

/-- The block at `header_ptr` is cut behind `newsize` bytes, and the rest is given back. -/
def shrink (h : MemHeap) (header_ptr newsize : Nat) : MemHeap :=
  let new_ptr := header_ptr + newsize + RT_MEMHEAP_SIZE
  let h := splitBlock h header_ptr new_ptr
  let right := h.get .next new_ptr
  let h :=
    if ¬RT_MEMHEAP_IS_USED h right then
      mergeNext { h with available_size := sub32 h.available_size (MEMITEM_SIZE h right) } new_ptr right
    else h
  let h := insertFree h new_ptr
  { h with available_size := add32 h.available_size (MEMITEM_SIZE h new_ptr) }

def rt_memheap_realloc (fuel : Nat) (h : MemHeap) (ptr : Option Nat) (newsize : Nat) :
    Option (MemHeap × Option Nat) :=
  if newsize = 0 then (rt_memheap_free h ptr).map fun h => (h, none)
  else
    let newsize := alignedSize newsize
    match ptr with
    | none => rt_memheap_alloc fuel h newsize
    | some ptr =>
      let header_ptr := ptr - RT_MEMHEAP_SIZE
      let oldsize := MEMITEM_SIZE h header_ptr
      if oldsize < newsize then do
        let next_ptr := h.get .next header_ptr
        RT_ASSERT (header_ptr < next_ptr)
        if ¬RT_MEMHEAP_IS_USED h next_ptr ∧
            add32 newsize RT_MEMHEAP_MINIALLOC < add32 (MEMITEM_SIZE h next_ptr) oldsize then
          return (expand h header_ptr oldsize newsize, some ptr)
        else
          let (h, new_ptr) ← rt_memheap_alloc fuel h newsize
          match new_ptr with
          | none => return (h, none)
          | some new_ptr =>
            let h := rt_memcpy h new_ptr ptr (if oldsize < newsize then oldsize else newsize)
            let h ← rt_memheap_free h (some ptr)
            return (h, some new_ptr)
      else if oldsize ≤ add32 (add32 newsize RT_MEMHEAP_SIZE) RT_MEMHEAP_MINIALLOC then
        some (h, some ptr)
      else some (shrink h header_ptr newsize, some ptr)

end Memheap

end Ab32Vg1.Kernel
