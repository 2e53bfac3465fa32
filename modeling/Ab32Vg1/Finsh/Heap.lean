import Ab32Vg1.Finsh.Parser
import Ab32Vg1.Kernel.Def
import Ab32Vg1.ProofKit.ByteMemory
import Ab32Vg1.ProofKit.Segments

/-! `finsh_heap.c`: the allocator of the shell's strings and its collector. The blocks lie in the array
`finsh_heap`, each behind a header with its length and its link. Pointers are addresses, and `NULL` is
0. A function that searches a list has a bound on the turns of its loops; it has no value where a
search does not end within it. -/

namespace Ab32Vg1.Finsh

open ProofKit Kernel

def FINSH_HEAP_MAX : Nat := 128

def HEAP_ALIGNMENT : Nat := 4

/-- `sizeof(struct finsh_block_header)`: two words. -/
def SIZEOF_HEADER : Nat := 8

/-- `HEAP_ALIGN_SIZE(size)` on 32-bit words. -/
def HEAP_ALIGN_SIZE (size : Nat) : Nat :=
  (size + HEAP_ALIGNMENT - 1) % 2 ^ 32 &&& (2 ^ 32 - 1) - (HEAP_ALIGNMENT - 1)

/-- What the collector reads of a `struct finsh_var`: its type, and its value as a pointer. -/
structure VarValue where
  type : FinshType
  ptr : Nat
  deriving DecidableEq, Repr

/-- `global_variable`. -/
abbrev Variables := Fin FINSH_VARIABLE_MAX → VarValue

/-- The memory with the static variables of `finsh_heap.c`. -/
structure Heap where
  bytes : Bytes
  free_list : Nat
  allocate_list : Nat

namespace Heap

/-! ### Headers -/

/-- `header->length`. -/
def length (m : Bytes) (header : Nat) : Nat := m.load header 4

/-- `header->next`. -/
def next (m : Bytes) (header : Nat) : Nat := m.load (header + 4) 4

def setLength (m : Bytes) (header v : Nat) : Bytes := m.store header 4 v

def setNext (m : Bytes) (header v : Nat) : Bytes := m.store (header + 4) 4 v

def finsh_block_get_header (data : Nat) : Nat := data - SIZEOF_HEADER

def finsh_block_get_data (header : Nat) : Nat := header + SIZEOF_HEADER

/-- The address behind the block of a header. -/
def behind (m : Bytes) (header : Nat) : Nat := header + length m header + SIZEOF_HEADER

/-- `finsh_heap_init`, with the address of `finsh_heap`. -/
def finsh_heap_init (finsh_heap : Nat) (m : Bytes) : Heap :=
  let m := m.fill finsh_heap 0 FINSH_HEAP_MAX
  let m := setLength m finsh_heap (FINSH_HEAP_MAX - SIZEOF_HEADER)
  { bytes := setNext m finsh_heap 0
    free_list := finsh_heap
    allocate_list := 0 }

/-! ### Lists of blocks

A list is its first header; the functions that can change it return the new one. -/

/-- The search for a block is over at the node before the place of `header`. -/
def finsh_block_insert (fuel : Nat) (m : Bytes) (list header : Nat) : Option (Bytes × Nat) :=
  if list = 0 then some (m, header)
  else if header < list then some (setNext m header list, header)
  else do
    let node ← seek (next m) (fun node => node = 0 ∨ header < next m node ∨ next m node = 0) fuel list
    let m := if next m node ≠ 0 then setNext m header (next m node) else m
    return (setNext m node header, list)

/-- The node of a list before `header`, or `NULL`. -/
def findPrev (fuel : Nat) (m : Bytes) (list header : Nat) : Option Nat :=
  seek (next m) (fun node => node = 0 ∨ next m node = header) fuel list

def finsh_block_remove (fuel : Nat) (m : Bytes) (list header : Nat) : Option (Bytes × Nat) :=
  if list = header then some (setNext m header 0, next m header)
  else do
    let node ← findPrev fuel m list header
    return (if node = 0 then m else setNext m node (next m header), list)

def finsh_block_split (m : Bytes) (header size : Nat) : Bytes :=
  let next' := header + SIZEOF_HEADER + size
  let m := setLength m next' (sub32 (sub32 (length m header) SIZEOF_HEADER) size)
  let m := setLength m header size
  let m := setNext m next' (next m header)
  setNext m header next'

/-- A block of a new length takes over the link of the last block it absorbs. -/
def absorb (m : Bytes) (node len last : Nat) : Bytes :=
  let m := setLength m node len
  setNext m node (next m last)

/-- `finsh_block_merge` behind its search for the node before. -/
def mergeWith (m : Bytes) (prev_node header : Nat) : Bytes :=
  let next_node := next m header
  if prev_node ≠ 0 ∧ behind m prev_node = header then
    if next_node ≠ 0 ∧ behind m header = next_node then
      absorb m prev_node
        (length m prev_node + (length m header + length m next_node + 2 * SIZEOF_HEADER)) next_node
    else absorb m prev_node (length m prev_node + (length m header + SIZEOF_HEADER)) header
  else if next_node ≠ 0 ∧ behind m header = next_node then
    absorb m header (length m header + (length m next_node + SIZEOF_HEADER)) next_node
  else m

def finsh_block_merge (fuel : Nat) (m : Bytes) (list header : Nat) : Option Bytes := do
  let prev_node ← if list = header then some 0 else findPrev fuel m list header
  return mergeWith m prev_node header

/-! ### Operations -/

def finsh_heap_free (fuel : Nat) (h : Heap) (ptr : Nat) : Option Heap := do
  let header := finsh_block_get_header ptr
  let (m, allocate_list) ← finsh_block_remove fuel h.bytes h.allocate_list header
  let (m, free_list) ← finsh_block_insert fuel m h.free_list header
  let m ← finsh_block_merge fuel m free_list header
  return { bytes := m, free_list, allocate_list }

/-- Whether a variable holds the data of a block. -/
def Referenced (vars : Variables) (data : Nat) : Prop :=
  ∃ i, (vars i).type ≠ .unknown ∧ (vars i).ptr = data

instance (vars : Variables) (data : Nat) : Decidable (Referenced vars data) :=
  inferInstanceAs (Decidable (∃ _, _))

/-- The loop of `finsh_heap_gc` from a header on. -/
def gcLoop (fuel : Nat) (vars : Variables) : Nat → Heap → (header : Nat) → Option Heap
  | 0, _, _ => none
  | n + 1, h, header =>
    if header = 0 then some h
    else
      let temp := header
      let header := next h.bytes header
      if Referenced vars (finsh_block_get_data temp) then gcLoop fuel vars n h header
      else do
        let h ← finsh_heap_free fuel h (finsh_block_get_data temp)
        gcLoop fuel vars n h header

def finsh_heap_gc (fuel : Nat) (vars : Variables) (h : Heap) : Option Heap :=
  gcLoop fuel vars fuel h h.allocate_list

/-- The first search of `finsh_heap_allocate`. -/
def findLarger (fuel : Nat) (h : Heap) (size : Nat) : Option Nat :=
  seek (next h.bytes)
    (fun header => ¬(header ≠ 0 ∧ length h.bytes header ≤ add32 size SIZEOF_HEADER)) fuel h.free_list

/-- The search behind the collection: a block may be used up. -/
def findFit (fuel : Nat) (h : Heap) (size : Nat) : Option Nat :=
  seek (next h.bytes)
    (fun header => ¬(header ≠ 0 ∧ length h.bytes header < add32 size SIZEOF_HEADER)) fuel h.free_list

/-- `finsh_heap_allocate` behind its searches. -/
def occupy (fuel : Nat) (h : Heap) (header size : Nat) : Option (Heap × Nat) := do
  let m := finsh_block_split h.bytes header size
  let (m, free_list) ← finsh_block_remove fuel m h.free_list header
  let m := setNext m header 0
  let (m, allocate_list) ← finsh_block_insert fuel m h.allocate_list header
  let data := finsh_block_get_data header
  return ({ bytes := m.fill data 0 size, free_list, allocate_list }, data)

def finsh_heap_allocate (fuel : Nat) (vars : Variables) (h : Heap) (size : Nat) :
    Option (Heap × Nat) := do
  let size := HEAP_ALIGN_SIZE size
  let header ← findLarger fuel h size
  if header = 0 then
    let h ← finsh_heap_gc fuel vars h
    let header ← findFit fuel h size
    if header = 0 then return (h, 0)
    else occupy fuel h header size
  else occupy fuel h header size

end Heap

end Ab32Vg1.Finsh
