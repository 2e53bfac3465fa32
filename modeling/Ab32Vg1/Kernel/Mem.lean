import Ab32Vg1.Kernel.Def
import Ab32Vg1.ProofKit.ByteMemory

/-! The small-memory allocator of `mem.c`.  The heap is one arena of bytes; every block starts with
a `struct heap_mem` whose `next` and `prev` are offsets from `heap_ptr`.  Sizes are 32-bit words.  A
function that can loop without end takes a number of iterations it may use; `none` means that it
has not returned within it, or that an assertion stopped the system. -/

namespace Ab32Vg1.Kernel

open ProofKit

namespace Mem

def HEAP_MAGIC : Nat := 0x1ea0

def MIN_SIZE : Nat := 12

def MIN_SIZE_ALIGNED : Nat := RT_ALIGN MIN_SIZE RT_ALIGN_SIZE

/-- `sizeof(struct heap_mem)` is 12: two half words and two words. -/
def SIZEOF_STRUCT_MEM : Nat := RT_ALIGN 12 RT_ALIGN_SIZE

/-- The static variables of `mem.c` with the memory they describe.  Pointers are addresses. -/
structure Heap where
  bytes : Bytes
  heap_ptr : Nat
  heap_end : Nat
  lfree : Nat
  mem_size_aligned : Nat
  used_mem : Nat
  max_mem : Nat

namespace Heap

variable (h : Heap)

/-! The fields of the `struct heap_mem` at an address. -/

def magic (mem : Nat) : Nat := h.bytes.load mem 2

def used (mem : Nat) : Nat := h.bytes.load (mem + 2) 2

def next (mem : Nat) : Nat := h.bytes.load (mem + 4) 4

def prev (mem : Nat) : Nat := h.bytes.load (mem + 8) 4

def setMagic (mem v : Nat) : Heap := { h with bytes := h.bytes.store mem 2 v }

def setUsed (mem v : Nat) : Heap := { h with bytes := h.bytes.store (mem + 2) 2 v }

def setNext (mem v : Nat) : Heap := { h with bytes := h.bytes.store (mem + 4) 4 v }

def setPrev (mem v : Nat) : Heap := { h with bytes := h.bytes.store (mem + 8) 4 v }

end Heap

/-- The static variables before `rt_system_heap_init`. -/
def boot (bytes : Bytes) : Heap := ⟨bytes, 0, 0, 0, 0, 0, 0⟩

/-- The test of `rt_system_heap_init` that the region holds two headers. -/
def regionOk (begin_align end_align : Nat) : Prop :=
  2 * SIZEOF_STRUCT_MEM < end_align ∧ begin_align ≤ end_align - 2 * SIZEOF_STRUCT_MEM

instance (b e : Nat) : Decidable (regionOk b e) := inferInstanceAs (Decidable (_ ∧ _))

def rt_system_heap_init (h : Heap) (begin_addr end_addr : Nat) : Heap :=
  let begin_align := RT_ALIGN begin_addr RT_ALIGN_SIZE
  let end_align := RT_ALIGN_DOWN end_addr RT_ALIGN_SIZE
  if regionOk begin_align end_align then
    let h := { h with
      mem_size_aligned := end_align - begin_align - 2 * SIZEOF_STRUCT_MEM
      heap_ptr := begin_align }
    let stop := h.mem_size_aligned + SIZEOF_STRUCT_MEM
    let mem := h.heap_ptr
    let h := (((h.setMagic mem HEAP_MAGIC).setNext mem stop).setPrev mem 0).setUsed mem 0
    let h := { h with heap_end := h.heap_ptr + h.next mem }
    let h := (((h.setMagic h.heap_end HEAP_MAGIC).setUsed h.heap_end 1).setNext h.heap_end
      stop).setPrev h.heap_end stop
    { h with lfree := h.heap_ptr }
  else
    -- "mem init, error begin address": the static variables keep their values
    h

/-- The two halves of `plug_holes`: `lo` absorbs the block `hi` behind it. -/
def combine (h : Heap) (lo hi : Nat) : Heap :=
  let h := { h with lfree := if h.lfree = hi then lo else h.lfree }
  let h := h.setNext lo (h.next hi)
  h.setPrev (h.heap_ptr + h.next hi) (lo - h.heap_ptr)

/-- "plug hole forward" -/
def plugForward (h : Heap) (mem : Nat) : Heap :=
  let nmem := h.heap_ptr + h.next mem
  if mem ≠ nmem ∧ h.used nmem = 0 ∧ nmem ≠ h.heap_end then combine h mem nmem else h

/-- "plug hole backward" -/
def plugBackward (h : Heap) (mem : Nat) : Heap :=
  let pmem := h.heap_ptr + h.prev mem
  if pmem ≠ mem ∧ h.used pmem = 0 then combine h pmem mem else h

def plug_holes (h : Heap) (mem : Nat) : Option Heap := do
  RT_ASSERT (h.heap_ptr ≤ mem)
  RT_ASSERT (mem < h.heap_end)
  RT_ASSERT (h.used mem = 0)
  return plugBackward (plugForward h mem) mem

/-- The block at offset `ptr` ends at offset `ptr2`, and a free block takes the rest of it. -/
def split (h : Heap) (ptr ptr2 : Nat) : Heap :=
  let mem := h.heap_ptr + ptr
  let mem2 := h.heap_ptr + ptr2
  let h := (((h.setMagic mem2 HEAP_MAGIC).setUsed mem2 0).setNext mem2 (h.next mem)).setPrev mem2
    ptr
  let h := h.setNext mem ptr2
  if h.next mem2 ≠ h.mem_size_aligned + SIZEOF_STRUCT_MEM then
    h.setPrev (h.heap_ptr + h.next mem2) ptr2
  else h

/-- `used_mem += n` with the record of its maximum. -/
def count (h : Heap) (n : Nat) : Heap :=
  let h := { h with used_mem := add32 h.used_mem n }
  { h with max_mem := if h.max_mem < h.used_mem then h.used_mem else h.max_mem }

/-- `mem->next - (ptr + SIZEOF_STRUCT_MEM)`: the user data size of the block at offset `ptr`. -/
def room (h : Heap) (ptr : Nat) : Nat :=
  sub32 (h.next (h.heap_ptr + ptr)) (add32 ptr SIZEOF_STRUCT_MEM)

/-- The loop of `rt_malloc` from offset `ptr` on: the first block that fits, or no block. -/
def search (h : Heap) (size : Nat) : (fuel : Nat) → (ptr : Nat) → Option (Option Nat)
  | 0, _ => none
  | fuel + 1, ptr =>
    if ptr < sub32 h.mem_size_aligned size then
      let mem := h.heap_ptr + ptr
      if h.used mem = 0 ∧ size ≤ room h ptr then some (some ptr)
      else search h size fuel (h.next mem)
    else some none

/-- `while (lfree->used && lfree != heap_end)` of `rt_malloc`. -/
def nextFree (h : Heap) : (fuel : Nat) → (lfree : Nat) → Option Nat
  | 0, _ => none
  | fuel + 1, lfree =>
    if h.used lfree ≠ 0 ∧ lfree ≠ h.heap_end then nextFree h fuel (h.heap_ptr + h.next lfree)
    else some lfree

/-- The block at offset `ptr` becomes used: a large block is split first. -/
def occupy (h : Heap) (size ptr : Nat) : Heap :=
  let mem := h.heap_ptr + ptr
  if add32 (add32 size SIZEOF_STRUCT_MEM) MIN_SIZE_ALIGNED ≤ room h ptr then
    count ((split h ptr (add32 (add32 ptr SIZEOF_STRUCT_MEM) size)).setUsed mem 1)
      (add32 size SIZEOF_STRUCT_MEM)
  else
    let h := h.setUsed mem 1
    count h (sub32 (h.next mem) (mem - h.heap_ptr))

/-- "Find next free block after mem and update lowest free pointer" -/
def advance (fuel : Nat) (h : Heap) (mem : Nat) : Option Heap :=
  if mem = h.lfree then do
    let lfree ← nextFree h fuel h.lfree
    RT_ASSERT (lfree = h.heap_end ∨ h.used lfree = 0)
    some { h with lfree }
  else some h

/-- The body of the loop of `rt_malloc` for the block at offset `ptr` that fits. -/
def take (fuel : Nat) (h : Heap) (size ptr : Nat) : Option (Heap × Option Nat) := do
  let mem := h.heap_ptr + ptr
  let h ← advance fuel ((occupy h size ptr).setMagic mem HEAP_MAGIC) mem
  RT_ASSERT (mem + SIZEOF_STRUCT_MEM + size ≤ h.heap_end)
  RT_ASSERT ((mem + SIZEOF_STRUCT_MEM) % RT_ALIGN_SIZE = 0)
  RT_ASSERT (mem &&& RT_ALIGN_SIZE - 1 = 0)
  return (h, some (mem + SIZEOF_STRUCT_MEM))

def rt_malloc (fuel : Nat) (h : Heap) (size : Nat) : Option (Heap × Option Nat) :=
  if size = 0 then some (h, none)
  else
    let size := RT_ALIGN size RT_ALIGN_SIZE
    if h.mem_size_aligned < size then some (h, none)
    else do
      let size := if size < MIN_SIZE_ALIGNED then MIN_SIZE_ALIGNED else size
      match ← search h size fuel (h.lfree - h.heap_ptr) with
      | none => return (h, none)
      | some ptr => take fuel h size ptr

/-- `if (mem < lfree) lfree = mem` -/
def lowerFree (h : Heap) (mem : Nat) : Heap :=
  { h with lfree := if mem < h.lfree then mem else h.lfree }

/-- The writes of `rt_free` before `plug_holes`. -/
def release (h : Heap) (mem : Nat) : Heap :=
  let h := (h.setUsed mem 0).setMagic mem HEAP_MAGIC
  let h := lowerFree h mem
  { h with used_mem := sub32 h.used_mem (sub32 (h.next mem) (mem - h.heap_ptr)) }

def rt_free (h : Heap) : (rmem : Option Nat) → Option Heap
  | none => some h
  | some rmem => do
    RT_ASSERT (rmem &&& RT_ALIGN_SIZE - 1 = 0)
    RT_ASSERT (h.heap_ptr ≤ rmem ∧ rmem < h.heap_end)
    let mem := rmem - SIZEOF_STRUCT_MEM
    RT_ASSERT (h.used mem ≠ 0)
    RT_ASSERT (h.magic mem = HEAP_MAGIC)
    plug_holes (release h mem) mem

def rt_memset (h : Heap) (s : Nat) (c : UInt8) (n : Nat) : Heap :=
  { h with bytes := h.bytes.fill s c n }

def rt_memcpy (h : Heap) (dst src n : Nat) : Heap := { h with bytes := h.bytes.copy dst src n }

/-- The part of `rt_realloc` that keeps the block and gives its tail back. -/
def shrink (h : Heap) (ptr size newsize : Nat) : Option Heap :=
  let h := { h with used_mem := sub32 h.used_mem (size - newsize) }
  let ptr2 := add32 (add32 ptr SIZEOF_STRUCT_MEM) newsize
  let mem2 := h.heap_ptr + ptr2
  let h := split h ptr ptr2
  plug_holes (lowerFree h mem2) mem2

def rt_realloc (fuel : Nat) (h : Heap) (rmem : Option Nat) (newsize : Nat) :
    Option (Heap × Option Nat) :=
  let newsize := RT_ALIGN newsize RT_ALIGN_SIZE
  if h.mem_size_aligned < newsize then some (h, none)
  else if newsize = 0 then (rt_free h rmem).map fun h => (h, none)
  else
    match rmem with
    | none => rt_malloc fuel h newsize
    | some rmem =>
      if rmem < h.heap_ptr ∨ h.heap_end ≤ rmem then some (h, some rmem)
      else
        let mem := rmem - SIZEOF_STRUCT_MEM
        let ptr := mem - h.heap_ptr
        let size := sub32 (sub32 (h.next mem) ptr) SIZEOF_STRUCT_MEM
        if size = newsize then some (h, some rmem)
        else if add32 (add32 newsize SIZEOF_STRUCT_MEM) MIN_SIZE < size then
          (shrink h ptr size newsize).map fun h => (h, some rmem)
        else do
          let (h, nmem) ← rt_malloc fuel h newsize
          match nmem with
          | none => return (h, none)
          | some nmem =>
            let h := rt_memcpy h nmem rmem (if size < newsize then size else newsize)
            let h ← rt_free h (some rmem)
            return (h, some nmem)

def rt_calloc (fuel : Nat) (h : Heap) (count size : Nat) : Option (Heap × Option Nat) := do
  let n := count * size % 2 ^ 32
  let (h, p) ← rt_malloc fuel h n
  match p with
  | none => return (h, none)
  | some p => return (rt_memset h p 0 n, some p)

end Mem

end Ab32Vg1.Kernel
