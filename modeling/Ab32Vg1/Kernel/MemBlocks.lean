import Ab32Vg1.Kernel.Mem
import Ab32Vg1.ProofKit.Tiling

/-! How the bytes of the heap represent a tiling of the arena, and what marking, splitting and
combining blocks do to the tiling. -/

namespace Ab32Vg1.Kernel

open ProofKit ProofKit.Tiling

theorem RT_ALIGN_eight {size : Nat} (h : size ≤ 2 ^ 32 - 8) :
    RT_ALIGN size 8 = (size + 7) / 8 * 8 := by
  have hsum : (size + 8 - 1) % 2 ^ 32 = size + 7 := by omega
  rw [RT_ALIGN, hsum]
  exact land_mask (k := 3) (by omega) (by decide)

/-- A size within 8 of `2 ^ 32` is rounded up to 0. -/
theorem RT_ALIGN_wraps {n : Nat} (hn : ¬n ≤ 2 ^ 32 - 8) (hlt : n < 2 ^ 32) : RT_ALIGN n 8 = 0 := by
  have hsum : (n + 8 - 1) % 2 ^ 32 = n + 7 - 2 ^ 32 := by omega
  rw [RT_ALIGN, hsum]
  exact (land_mask (k := 3) (show n + 7 - 2 ^ 32 < 2 ^ 32 by omega) (by decide)).trans (by omega)

theorem RT_ALIGN_DOWN_eight {size : Nat} (h : size < 2 ^ 32) :
    RT_ALIGN_DOWN size 8 = size / 8 * 8 :=
  land_mask (k := 3) h (by decide)

theorem RT_ALIGN_DOWN_eight_dvd (size : Nat) : 8 ∣ RT_ALIGN_DOWN size 8 := by
  apply Nat.dvd_of_mod_eq_zero
  rw [RT_ALIGN_DOWN, show 8 = 2 ^ 3 from rfl, Nat.and_mod_two_pow]
  simp

theorem RT_ALIGN_DOWN_eight_lt (size : Nat) : RT_ALIGN_DOWN size 8 < 2 ^ 32 :=
  lt_of_le_of_lt Nat.and_le_right (by decide)

theorem RT_ALIGN_eight_dvd (size : Nat) : 8 ∣ RT_ALIGN size 8 := by
  have h : (size + 8 - 1) % 2 ^ 32 < 2 ^ 32 := Nat.mod_lt _ (by decide)
  have := land_mask (k := 3) h (by decide)
  exact ⟨_, this.trans (mul_comm _ _)⟩

theorem RT_ALIGN_eight_lt {size : Nat} : RT_ALIGN size 8 < 2 ^ 32 :=
  lt_of_le_of_lt Nat.and_le_left (Nat.mod_lt _ (by decide))

namespace Mem

@[simp] theorem SIZEOF_STRUCT_MEM_eq : SIZEOF_STRUCT_MEM = 16 := by decide
@[simp] theorem MIN_SIZE_ALIGNED_eq : MIN_SIZE_ALIGNED = 16 := by decide
@[simp] theorem MIN_SIZE_eq : MIN_SIZE = 12 := rfl
@[simp] theorem RT_ALIGN_SIZE_eq : RT_ALIGN_SIZE = 8 := rfl

/-- A block of the heap: its header and its user area. -/
abbrev Blk := Block 16 8

/-- The value of the `used` field of a block. -/
def usedWord (used : Bool) : Nat := if used then 1 else 0

/-- The fields of the `struct heap_mem` at `mem`. -/
structure HeaderAt (m : Bytes) (mem : Nat) (used : Bool) (next prev : Nat) : Prop where
  magic : m.load mem 2 = HEAP_MAGIC
  used : m.load (mem + 2) 2 = usedWord used
  next : m.load (mem + 4) 4 = next
  prev : m.load (mem + 8) 4 = prev

theorem HeaderAt.congr {m m' : Bytes} {mem next prev : Nat} {used : Bool}
    (h : HeaderAt m mem used next prev) (ha : m.AgreeOn m' mem (mem + 12)) :
    HeaderAt m' mem used next prev where
  magic := (Bytes.load_congr (ha.mono (by omega) (by omega))).trans h.magic
  used := (Bytes.load_congr (ha.mono (by omega) (by omega))).trans h.used
  next := (Bytes.load_congr (ha.mono (by omega) (by omega))).trans h.next
  prev := (Bytes.load_congr (ha.mono (by omega) (by omega))).trans h.prev

/-- The offset of the last block of a run that starts at `o` behind the block at `p`. -/
def lastStart : (p o : Nat) → List Blk → Nat
  | p, _, [] => p
  | _, o, b :: bs => lastStart o (o + b.size) bs

/-- The headers of a run of blocks that starts at offset `o` behind the block at `p`. -/
def Seg (m : Bytes) (base : Nat) : (p o : Nat) → List Blk → Prop
  | _, _, [] => True
  | p, o, b :: bs => HeaderAt m (base + o) b.used (o + b.size) p ∧ Seg m base o (o + b.size) bs

theorem lastStart_append (p o : Nat) (xs ys : List Blk) :
    lastStart p o (xs ++ ys) = lastStart (lastStart p o xs) (o + total xs) ys := by
  induction xs generalizing p o with
  | nil => simp [lastStart]
  | cons x xs ih => simp [lastStart, ih, Nat.add_assoc]

theorem lastStart_snoc (p o : Nat) (xs : List Blk) (b : Blk) :
    lastStart p o (xs ++ [b]) = o + total xs := by
  rw [lastStart_append]
  rfl

theorem Seg.append {m : Bytes} {base p o : Nat} {xs ys : List Blk} :
    Seg m base p o (xs ++ ys) ↔
      Seg m base p o xs ∧ Seg m base (lastStart p o xs) (o + total xs) ys := by
  induction xs generalizing p o with
  | nil => simp [Seg, lastStart]
  | cons x xs ih => simp [Seg, lastStart, ih, Nat.add_assoc, and_assoc]

theorem Seg.frame {m m' : Bytes} {base p o : Nat} {bs : List Blk} (h : Seg m base p o bs)
    (ha : m.AgreeOn m' (base + o) (base + o + total bs)) : Seg m' base p o bs := by
  induction bs generalizing p o with
  | nil => trivial
  | cons b bs ih =>
    have hb := b.room_le
    rw [total_cons] at ha
    exact ⟨h.1.congr (ha.mono (by omega) (by omega)),
      ih h.2 (ha.mono (by omega) (by omega))⟩

/-- A run keeps its headers when only the `prev` field of its first block is written. -/
theorem Seg.relink {m m' : Bytes} {base p q o : Nat} {bs : List Blk} (h : Seg m base p o bs)
    (hlo : m.AgreeOn m' (base + o) (base + o + 8))
    (hhi : m.AgreeOn m' (base + o + 12) (base + o + total bs))
    (hlink : bs ≠ [] → m'.load (base + o + 8) 4 = q) : Seg m' base q o bs := by
  cases bs with
  | nil => trivial
  | cons b bs =>
    have hb := b.room_le
    obtain ⟨hd, ht⟩ := h
    rw [total_cons] at hhi
    refine ⟨⟨?_, ?_, ?_, hlink (by simp)⟩, ht.frame (hhi.mono (by omega) (by omega))⟩
    · exact (Bytes.load_congr (hlo.mono (by omega) (by omega))).trans hd.magic
    · exact (Bytes.load_congr (hlo.mono (by omega) (by omega))).trans hd.used
    · exact (Bytes.load_congr (hlo.mono (by omega) (by omega))).trans hd.next

/-- The bytes of the arena represent the tiling `bs`, and the sentinel follows it. -/
structure Shape (h : Heap) (bs : List Blk) : Prop where
  align : 8 ∣ h.heap_ptr
  fits : h.heap_ptr + h.mem_size_aligned + 32 < 2 ^ 32
  end_eq : h.heap_end = h.heap_ptr + (h.mem_size_aligned + 16)
  total_eq : total bs = h.mem_size_aligned + 16
  seg : Seg h.bytes h.heap_ptr 0 0 bs
  end_used : h.used h.heap_end = 1
  end_next : h.next h.heap_end = h.mem_size_aligned + 16

/-- The tiling `bs` with the lowest free block and the size in use as the allocator records
them. -/
structure Counted (h : Heap) (bs : List Blk) : Prop extends Shape h bs where
  lfree_eq : h.lfree = h.heap_ptr + firstFree 0 bs
  used_eq : h.used_mem = usedTotal bs
  used_room : ∀ b ∈ bs, b.used = true → 24 ≤ b.size

/-- The state of the allocator between operations. -/
structure Holds (h : Heap) (bs : List Blk) : Prop extends Counted h bs where
  coalesced : Coalesced bs

theorem Shape.congr {h h' : Heap} {bs : List Blk} (hs : Shape h bs) (h1 : h'.bytes = h.bytes)
    (h2 : h'.heap_ptr = h.heap_ptr) (h3 : h'.heap_end = h.heap_end)
    (h4 : h'.mem_size_aligned = h.mem_size_aligned) : Shape h' bs := by
  obtain ⟨a, b, c, d, e, f, g⟩ := hs
  constructor <;> simp only [Heap.used, Heap.next, h1, h2, h3, h4] at * <;> assumption

section Shape

variable {h : Heap} {pre post : List Blk} {b : Blk}

/-- The header of the block behind the run `pre`. -/
theorem Shape.header (hs : Shape h (pre ++ b :: post)) :
    HeaderAt h.bytes (h.heap_ptr + total pre) b.used (total pre + b.size) (lastStart 0 0 pre) := by
  have := (Seg.append.mp hs.seg).2
  rw [Nat.zero_add] at this
  exact this.1

theorem Shape.sum (hs : Shape h (pre ++ b :: post)) :
    total pre + b.size + total post = h.mem_size_aligned + 16 := by
  rw [← hs.total_eq, total_append, total_cons, Nat.add_assoc]

/-- A run is empty or has room for a header. -/
theorem total_room (bs : List Blk) : bs = [] ∨ 16 ≤ total bs := by
  cases bs with
  | nil => exact Or.inl rfl
  | cons b bs =>
    have := b.room_le
    rw [total_cons]
    exact Or.inr (by omega)

/-- A block and what follows it replaced by a run of the same size, through writes from the block
on: the blocks before keep their headers. -/
theorem Shape.replace {h' : Heap} {mid : List Blk} (hs : Shape h (pre ++ b :: post))
    (hptr : h'.heap_ptr = h.heap_ptr) (hend : h'.heap_end = h.heap_end)
    (hsize : h'.mem_size_aligned = h.mem_size_aligned)
    (hbefore : h.bytes.AgreeOn h'.bytes h.heap_ptr (h.heap_ptr + total pre))
    (hsent : h.bytes.AgreeOn h'.bytes (h.heap_end + 2) (h.heap_end + 8))
    (htotal : total mid = b.size + total post)
    (hseg : Seg h'.bytes h.heap_ptr (lastStart 0 0 pre) (total pre) mid) :
    Shape h' (pre ++ mid) where
  align := hptr ▸ hs.align
  fits := by rw [hptr, hsize]; exact hs.fits
  end_eq := by rw [hptr, hend, hsize]; exact hs.end_eq
  total_eq := by rw [hsize, ← hs.sum, total_append, htotal]; omega
  seg := by
    rw [hptr]
    refine Seg.append.mpr ⟨(Seg.append.mp hs.seg).1.frame ?_, by simpa using hseg⟩
    exact hbefore.mono (by omega) (by omega)
  end_used := by
    rw [Heap.used, hend]
    exact (Bytes.load_congr (hsent.mono (by omega) (by omega))).trans hs.end_used
  end_next := by
    rw [Heap.next, hend, hsize]
    exact (Bytes.load_congr (hsent.mono (by omega) (by omega))).trans hs.end_next

theorem Shape.tail (hs : Shape h (pre ++ b :: post)) :
    Seg h.bytes h.heap_ptr (total pre) (total pre + b.size) post := by
  have := (Seg.append.mp hs.seg).2
  rw [Nat.zero_add] at this
  exact this.2

/-- Writing the `used` field marks the block. -/
theorem Shape.setUsed (hs : Shape h (pre ++ b :: post)) (u : Bool) :
    Shape (h.setUsed (h.heap_ptr + total pre) (usedWord u)) (pre ++ b.mark u :: post) := by
  have hsum := hs.sum
  have hend := hs.end_eq
  have hroom := b.room_le
  have hword : usedWord u < 256 ^ 2 := by cases u <;> decide
  have hd := hs.header
  refine hs.replace rfl rfl rfl (Bytes.store_agreeOn (by omega)) (Bytes.store_agreeOn (by omega))
    (by simp) ⟨⟨?_, ?_, ?_, ?_⟩, hs.tail.frame (Bytes.store_agreeOn (by omega))⟩
  · exact (Bytes.load_store_of_disjoint (by omega)).trans hd.magic
  · exact Bytes.load_store_of_lt hword
  · exact (Bytes.load_store_of_disjoint (by omega)).trans hd.next
  · exact (Bytes.load_store_of_disjoint (by omega)).trans hd.prev

/-- A block keeps its magic number when it is written again. -/
theorem Shape.setMagic (hs : Shape h (pre ++ b :: post)) :
    Shape (h.setMagic (h.heap_ptr + total pre) HEAP_MAGIC) (pre ++ b :: post) := by
  have hsum := hs.sum
  have hend := hs.end_eq
  have hroom := b.room_le
  have hd := hs.header
  refine hs.replace rfl rfl rfl (Bytes.store_agreeOn (by omega)) (Bytes.store_agreeOn (by omega))
    (by simp) ⟨⟨?_, ?_, ?_, ?_⟩, hs.tail.frame (Bytes.store_agreeOn (by omega))⟩
  · exact Bytes.load_store_of_lt (by decide)
  · exact (Bytes.load_store_of_disjoint (by omega)).trans hd.used
  · exact (Bytes.load_store_of_disjoint (by omega)).trans hd.next
  · exact (Bytes.load_store_of_disjoint (by omega)).trans hd.prev

/-- Bytes written in the user area of a block are no business of the allocator. -/
theorem Shape.userWrite {bytes : Bytes} (hs : Shape h (pre ++ b :: post))
    (hlo : h.bytes.AgreeOn bytes h.heap_ptr (h.heap_ptr + total pre + 16))
    (hhi : h.bytes.AgreeOn bytes (h.heap_ptr + total pre + b.size) (h.heap_end + 16)) :
    Shape { h with bytes } (pre ++ b :: post) := by
  have hsum := hs.sum
  have hend := hs.end_eq
  have hroom := b.room_le
  refine hs.replace rfl rfl rfl (hlo.mono (by omega) (by omega)) (hhi.mono (by omega) (by omega))
    (by simp) ⟨hs.header.congr (hlo.mono (by omega) (by omega)), ?_⟩
  exact hs.tail.frame (hhi.mono (by omega) (by omega))

/-- The bytes after the two headers of a split are written. -/
def splitHeaders (m : Bytes) (mem mem2 ptr ptr2 next : Nat) : Bytes :=
  ((((m.store mem2 2 HEAP_MAGIC).store (mem2 + 2) 2 0).store (mem2 + 4) 4 next).store (mem2 + 8) 4
    ptr).store (mem + 4) 4 ptr2

theorem splitHeaders_outside {m : Bytes} {mem mem2 ptr ptr2 next lo hi : Nat}
    (h1 : hi ≤ mem + 4 ∨ mem + 8 ≤ lo) (h2 : hi ≤ mem2 ∨ mem2 + 12 ≤ lo) :
    m.AgreeOn (splitHeaders m mem mem2 ptr ptr2 next) lo hi :=
  (Bytes.store_agreeOn (by omega)).trans <| (Bytes.store_agreeOn (by omega)).trans <|
    (Bytes.store_agreeOn (by omega)).trans <| (Bytes.store_agreeOn (by omega)).trans <|
    Bytes.store_agreeOn (by omega)

theorem splitHeaders_first {m : Bytes} {mem mem2 ptr ptr2 next old prev : Nat} {u : Bool}
    (hd : HeaderAt m mem u old prev) (hlt : mem + 12 ≤ mem2) (h2 : ptr2 < 256 ^ 4) :
    HeaderAt (splitHeaders m mem mem2 ptr ptr2 next) mem u ptr2 prev where
  magic := (Bytes.load_congr (splitHeaders_outside (by omega) (by omega))).trans hd.magic
  used := (Bytes.load_congr (splitHeaders_outside (by omega) (by omega))).trans hd.used
  next := Bytes.load_store_of_lt h2
  prev := (Bytes.load_congr (splitHeaders_outside (by omega) (by omega))).trans hd.prev

theorem splitHeaders_second {m : Bytes} {mem mem2 ptr ptr2 next : Nat} (hlt : mem + 12 ≤ mem2)
    (h1 : ptr < 256 ^ 4) (h2 : next < 256 ^ 4) :
    HeaderAt (splitHeaders m mem mem2 ptr ptr2 next) mem2 false next ptr := by
  constructor <;>
    simp (disch := omega) only [splitHeaders, Bytes.load_store_of_disjoint, Bytes.load_store_self] <;>
    simp [HEAP_MAGIC, usedWord]
  · exact h2
  · exact h1

theorem split_eq {ptr ptr2 next : Nat} (hnext : h.next (h.heap_ptr + ptr) = next)
    (hlt : ptr + 12 ≤ ptr2) (h1 : ptr < 256 ^ 4) (h2 : next < 256 ^ 4) :
    split h ptr ptr2 =
      { h with
        bytes :=
          let m := splitHeaders h.bytes (h.heap_ptr + ptr) (h.heap_ptr + ptr2) ptr ptr2 next
          if next ≠ h.mem_size_aligned + 16 then m.store (h.heap_ptr + next + 8) 4 ptr2 else m } := by
  have hd : HeaderAt (splitHeaders h.bytes (h.heap_ptr + ptr) (h.heap_ptr + ptr2) ptr ptr2 next)
      (h.heap_ptr + ptr2) false next ptr := splitHeaders_second (by omega) h1 h2
  have hread : (((((h.setMagic (h.heap_ptr + ptr2) HEAP_MAGIC).setUsed (h.heap_ptr + ptr2)
      0).setNext (h.heap_ptr + ptr2) (h.next (h.heap_ptr + ptr))).setPrev (h.heap_ptr + ptr2)
      ptr).setNext (h.heap_ptr + ptr) ptr2).next (h.heap_ptr + ptr2) = next := by
    rw [hnext]
    exact hd.next
  simp only [split, SIZEOF_STRUCT_MEM_eq, hread]
  simp only [Heap.setNext, Heap.setPrev, Heap.setUsed, Heap.setMagic, hnext]
  by_cases hlast : next = h.mem_size_aligned + 16
  · simp only [hlast, ne_eq, not_true, if_false]
    rfl
  · simp only [hlast, ne_eq, not_false_iff, if_true]
    rfl

/-! A split writes headers only. -/

@[simp] theorem split_heap_ptr (h : Heap) (ptr ptr2 : Nat) :
    (Mem.split h ptr ptr2).heap_ptr = h.heap_ptr := by
  unfold Mem.split
  dsimp only
  split <;> rfl

@[simp] theorem split_size (h : Heap) (ptr ptr2 : Nat) :
    (Mem.split h ptr ptr2).mem_size_aligned = h.mem_size_aligned := by
  unfold Mem.split
  dsimp only
  split <;> rfl

@[simp] theorem split_lfree (h : Heap) (ptr ptr2 : Nat) :
    (Mem.split h ptr ptr2).lfree = h.lfree := by
  unfold Mem.split
  dsimp only
  split <;> rfl

@[simp] theorem split_used_mem (h : Heap) (ptr ptr2 : Nat) :
    (Mem.split h ptr ptr2).used_mem = h.used_mem := by
  unfold Mem.split
  dsimp only
  split <;> rfl

/-- `split` cuts a block in two; the second one is free. -/
theorem Shape.split {c d : Blk} (hs : Shape h (pre ++ b :: post)) (hsize : b.size = c.size + d.size)
    (hc : c.used = b.used) (hd : d.used = false) :
    Shape (Mem.split h (total pre) (total pre + c.size)) (pre ++ c :: d :: post) := by
  have hsum := hs.sum
  have hend := hs.end_eq
  have hfits := hs.fits
  have hcr := c.room_le
  have hdr := d.room_le
  have hnext : h.next (h.heap_ptr + total pre) = total pre + b.size := hs.header.next
  let m := splitHeaders h.bytes (h.heap_ptr + total pre) (h.heap_ptr + (total pre + c.size))
    (total pre) (total pre + c.size) (total pre + b.size)
  have h1 : HeaderAt m (h.heap_ptr + total pre) c.used (total pre + c.size) (lastStart 0 0 pre) :=
    splitHeaders_first (hc ▸ hs.header) (by omega) (by omega)
  have h2 : HeaderAt m (h.heap_ptr + (total pre + c.size)) d.used (total pre + c.size + d.size)
      (total pre) := by
    rw [hd, Nat.add_assoc (total pre), ← hsize]
    exact splitHeaders_second (by omega) (by omega) (by omega)
  have hout : ∀ lo hi, hi ≤ h.heap_ptr + total pre ∨ h.heap_ptr + total pre + b.size ≤ lo →
      h.bytes.AgreeOn m lo hi := fun lo hi _ => splitHeaders_outside (by omega) (by omega)
  rw [split_eq hnext (by omega) (by omega) (by omega)]
  by_cases hlast : total pre + b.size = h.mem_size_aligned + 16
  · -- the block was the last one: nothing follows the new block
    have hpost : post = [] := (total_room post).resolve_right (by omega)
    subst hpost
    simp only [hlast, ne_eq, not_true, if_false]
    rw [← hlast]
    exact hs.replace rfl rfl rfl (hout _ _ (by omega)) (hout _ _ (by omega)) (by simp [hsize])
      ⟨h1, h2, trivial⟩
  · simp only [hlast, ne_eq, not_false_iff, if_true]
    have hpost : 16 ≤ total post := by
      rcases total_room post with hnil | hle
      · rw [hnil, total_nil] at hsum
        omega
      · exact hle
    refine hs.replace rfl rfl rfl ((hout _ _ (by omega)).trans (Bytes.store_agreeOn (by omega)))
      ((hout _ _ (by omega)).trans (Bytes.store_agreeOn (by omega))) (by simp [hsize]; omega)
      ⟨h1.congr (Bytes.store_agreeOn (by omega)), h2.congr (Bytes.store_agreeOn (by omega)), ?_⟩
    -- the block behind points back to the new block
    rw [Nat.add_assoc (total pre), ← hsize]
    refine hs.tail.relink ((hout _ _ (by omega)).trans (Bytes.store_agreeOn (by omega)))
      ((hout _ _ (by omega)).trans (Bytes.store_agreeOn (by omega))) fun _ => ?_
    rw [← Nat.add_assoc h.heap_ptr]
    exact Bytes.load_store_of_lt (by omega)

theorem combine_eq {lo hi next : Nat} (hnext : h.next hi = next) (hlt : lo + 4 ≤ hi) :
    combine h lo hi =
      { h with
        lfree := if h.lfree = hi then lo else h.lfree
        bytes := (h.bytes.store (lo + 4) 4 next).store (h.heap_ptr + next + 8) 4
          (lo - h.heap_ptr) } := by
  have hread : (h.bytes.store (lo + 4) 4 next).load (hi + 4) 4 = next :=
    (Bytes.load_store_of_disjoint (by omega)).trans hnext
  simp only [Heap.next] at hnext
  simp only [combine, Heap.setNext, Heap.setPrev, Heap.next, hnext, hread]

/-- `combine` joins a free block with the block behind it. -/
theorem Shape.combine {a : Blk} (hs : Shape h (pre ++ a :: b :: post)) (ha : a.used = false) :
    Shape (Mem.combine h (h.heap_ptr + total pre) (h.heap_ptr + (total pre + a.size)))
      (pre ++ a.join b :: post) := by
  have hs' : Shape h ((pre ++ [a]) ++ b :: post) := by simpa using hs
  have hsum := hs.sum
  rw [total_cons] at hsum
  have hend := hs.end_eq
  have hfits := hs.fits
  have har := a.room_le
  have hbr := b.room_le
  have hpre : total (pre ++ [a]) = total pre + a.size := by simp
  have hd := hs.header
  have hnext : h.next (h.heap_ptr + (total pre + a.size)) = total pre + a.size + b.size := by
    have := hs'.header.next
    rwa [hpre] at this
  have htail := hs'.tail
  rw [hpre] at htail
  rw [combine_eq hnext (by omega)]
  have hroom := total_room post
  have hout : ∀ lo hi, hi ≤ h.heap_ptr + total pre + 4 ∨ h.heap_ptr + total pre + 8 ≤ lo →
      hi ≤ h.heap_ptr + (total pre + a.size + b.size) + 8 ∨
        h.heap_ptr + (total pre + a.size + b.size) + 12 ≤ lo →
      h.bytes.AgreeOn ((h.bytes.store (h.heap_ptr + total pre + 4) 4
        (total pre + a.size + b.size)).store (h.heap_ptr + (total pre + a.size + b.size) + 8) 4
          (h.heap_ptr + total pre - h.heap_ptr)) lo hi := fun lo hi _ _ =>
    (Bytes.store_agreeOn (by omega)).trans (Bytes.store_agreeOn (by omega))
  have hempty : post = [] → total post = 0 := fun h => by rw [h, total_nil]
  refine hs.replace rfl rfl rfl (hout _ _ (by omega) (by omega)) (hout _ _ (by omega) ?_)
    (by simp; omega) ⟨⟨?_, ?_, ?_, ?_⟩, ?_⟩
  · rcases hroom with hnil | hle
    · have := hempty hnil
      omega
    · omega
  · exact (Bytes.load_congr (hout _ _ (by omega) (by omega))).trans hd.magic
  · rw [Block.join_used, ← ha]
    exact (Bytes.load_congr (hout _ _ (by omega) (by omega))).trans hd.used
  · rw [Bytes.load_store_of_disjoint (by omega), Bytes.load_store_of_lt (by omega)]
    simp [Nat.add_assoc]
  · exact (Bytes.load_congr (hout _ _ (by omega) (by omega))).trans hd.prev
  · rw [show total pre + (a.join b).size = total pre + a.size + b.size by simp [Nat.add_assoc]]
    refine htail.relink (hout _ _ (by omega) (by omega)) (hout _ _ (by omega) (by omega))
      fun _ => ?_
    rw [Bytes.load_store_of_lt (by omega)]
    omega

/-! ### What the operations leave alone -/

/-- The byte at `i` is in the `next` field or in the user area of a block in use of the run at
address `o`. -/
def Owned : (o : Nat) → List Blk → (i : Nat) → Prop
  | _, [], _ => False
  | o, b :: bs, i =>
    (b.used = true ∧ (o + 4 ≤ i ∧ i < o + 8 ∨ o + 16 ≤ i ∧ i < o + b.size)) ∨
      Owned (o + b.size) bs i

@[simp] theorem Owned.append {o i : Nat} {xs ys : List Blk} :
    Owned o (xs ++ ys) i ↔ Owned o xs i ∨ Owned (o + total xs) ys i := by
  induction xs generalizing o with
  | nil => simp [Owned]
  | cons x xs ih => simp [Owned, ih, Nat.add_assoc, or_assoc]

theorem Owned.bounds {o i : Nat} {bs : List Blk} (hi : Owned o bs i) : o ≤ i ∧ i < o + total bs := by
  induction bs generalizing o with
  | nil => exact hi.elim
  | cons b bs ih =>
    have hroom := b.room_le
    rw [total_cons]
    rcases hi with ⟨-, hi⟩ | hi
    · omega
    · have := ih hi
      omega

/-- The rest of the first header of a run belongs to the allocator. -/
theorem Owned.not_header {o i : Nat} {bs : List Blk} (hi : Owned o bs i) :
    o + 4 ≤ i ∧ (i < o + 8 ∨ o + 16 ≤ i) := by
  cases bs with
  | nil => exact hi.elim
  | cons b bs =>
    have hroom := b.room_le
    rcases hi with ⟨-, hi⟩ | hi
    · omega
    · have := hi.bounds
      omega

theorem Owned.cons_free {o i : Nat} {b : Blk} {bs : List Blk} (hb : b.used = false) :
    Owned o (b :: bs) i ↔ Owned (o + b.size) bs i := by
  simp [Owned, hb]

theorem Owned.join {o i : Nat} {a : Blk} (ha : a.used = false) (hb : b.used = false) :
    Owned o (pre ++ a.join b :: post) i ↔ Owned o (pre ++ a :: b :: post) i := by
  rw [Owned.append, Owned.append, Owned.cons_free (Block.join_used a b), Owned.cons_free ha,
    Owned.cons_free hb, Block.join_size, Nat.add_assoc _ a.size]

/-- The bytes that the blocks of `bs` in use own are the same in `h'` as in `h`. -/
def Keeps (h h' : Heap) (bs : List Blk) : Prop :=
  ∀ i, Owned h.heap_ptr bs i → h'.bytes i = h.bytes i

theorem Keeps.refl (h : Heap) (bs : List Blk) : Keeps h h bs := fun _ _ => rfl

theorem Keeps.trans {h1 h2 h3 : Heap} {bs bs' : List Blk} (h12 : Keeps h1 h2 bs)
    (h23 : Keeps h2 h3 bs') (hptr : h2.heap_ptr = h1.heap_ptr)
    (hsub : ∀ i, Owned h1.heap_ptr bs i → Owned h1.heap_ptr bs' i) : Keeps h1 h3 bs := by
  intro i hi
  rw [h23 i (hptr ▸ hsub i hi), h12 i hi]

/-- `combine` writes to free blocks and to the `prev` field behind them. -/
theorem Shape.combine_keeps {a : Blk} (hs : Shape h (pre ++ a :: b :: post)) (ha : a.used = false)
    (hb : b.used = false) :
    Keeps h (Mem.combine h (h.heap_ptr + total pre) (h.heap_ptr + (total pre + a.size)))
      (pre ++ a :: b :: post) := by
  have har := a.room_le
  have hbr := b.room_le
  have hs' : Shape h ((pre ++ [a]) ++ b :: post) := by simpa using hs
  have hnext : h.next (h.heap_ptr + (total pre + a.size)) = total pre + a.size + b.size := by
    have := hs'.header.next
    rwa [show total (pre ++ [a]) = total pre + a.size by simp] at this
  rw [combine_eq hnext (by omega)]
  intro i hi
  rw [Owned.append, Owned.cons_free ha, Owned.cons_free hb] at hi
  refine (Bytes.store_outside ?_).trans (Bytes.store_outside ?_)
  · rcases hi with hi | hi
    · have := hi.bounds
      omega
    · have := hi.not_header
      omega
  · rcases hi with hi | hi
    · have := hi.bounds
      omega
    · have := hi.not_header
      omega

/-- `split` writes to the header of the block, to the header of the new one and to the `prev`
field behind them. -/
theorem Shape.split_keeps {c d : Blk} {i : Nat} (hs : Shape h (pre ++ b :: post))
    (hsize : b.size = c.size + d.size)
    (hi : Owned h.heap_ptr (pre ++ b.mark false :: post) i ∨
      h.heap_ptr + total pre + 16 ≤ i ∧ i < h.heap_ptr + total pre + c.size) :
    (Mem.split h (total pre) (total pre + c.size)).bytes i = h.bytes i := by
  have hsum := hs.sum
  have hfits := hs.fits
  have hcr := c.room_le
  have hdr := d.room_le
  have hnext : h.next (h.heap_ptr + total pre) = total pre + b.size := hs.header.next
  rw [Owned.append, Owned.cons_free (Block.mark_used b false), Block.mark_size] at hi
  have hout : (i < h.heap_ptr + total pre + 4 ∨ h.heap_ptr + total pre + 8 ≤ i) ∧
      (i < h.heap_ptr + (total pre + c.size) ∨ h.heap_ptr + (total pre + c.size) + 12 ≤ i) ∧
      (i < h.heap_ptr + (total pre + b.size) + 8 ∨ h.heap_ptr + (total pre + b.size) + 12 ≤ i) := by
    rcases hi with (hi | hi) | hi
    · have := hi.bounds
      omega
    · have := hi.not_header
      omega
    · omega
  rw [split_eq hnext (by omega) (by omega) (by omega)]
  have hheaders : splitHeaders h.bytes (h.heap_ptr + total pre) (h.heap_ptr + (total pre + c.size))
      (total pre) (total pre + c.size) (total pre + b.size) i = h.bytes i :=
    splitHeaders_outside (by omega) (by omega) i (Nat.le_refl i) (Nat.lt_succ_self i)
  by_cases hlast : total pre + b.size = h.mem_size_aligned + 16
  · simp only [hlast, ne_eq, not_true, if_false]
    rwa [hlast] at hheaders
  · simp only [hlast, ne_eq, not_false_iff, if_true]
    exact (Bytes.store_outside (by omega)).trans hheaders

end Shape

end Mem

end Ab32Vg1.Kernel
