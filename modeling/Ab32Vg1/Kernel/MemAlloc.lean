import Ab32Vg1.Kernel.MemOps
import Ab32Vg1.ProofKit.Fuel

/-! `rt_malloc`, `rt_realloc` and `rt_calloc` on the tiling of the arena: they return, and the
block of the result is the one that becomes used. -/

namespace Ab32Vg1.Kernel.Mem

open ProofKit ProofKit.Tiling

section Search

variable {h : Heap} {pre post rest bs : List Blk} {b : Blk} {size : Nat}

theorem Shape.room_eq (hs : Shape h (pre ++ b :: post)) : room h (total pre) = b.size - 16 := by
  have hsum := hs.sum
  have hfits := hs.fits
  have hroom := b.room_le
  have hnext : h.next (h.heap_ptr + total pre) = total pre + b.size := hs.header.next
  rw [room, hnext, SIZEOF_STRUCT_MEM_eq, add32_of_lt (by omega), sub32_of_le (by omega) (by omega)]
  omega

/-- The offset that the loop of `rt_malloc` stops at from offset `o` on: the first fit, when it lies
below the limit of the loop. -/
def found (h : Heap) (size o : Nat) (bs : List Blk) : Option Nat :=
  (firstFit (size + 16) o bs).filter fun p => p + size < h.mem_size_aligned

/-- The search for a block from offset `total pre` on returns. -/
theorem search_returns (hs : Shape h (pre ++ rest)) (hsize : size ≤ h.mem_size_aligned) :
    Returns (fun fuel => search h size fuel (total pre)) rest.length
      fun r => r = found h size (total pre) rest := by
  have hfits := hs.fits
  have hlimit : sub32 h.mem_size_aligned size = h.mem_size_aligned - size :=
    sub32_of_le (by omega) hsize
  induction rest generalizing pre with
  | nil =>
    have htotal := hs.total_eq
    rw [List.append_nil] at htotal
    refine Returns.stop (a := none) rfl (fun k => ?_) rfl
    rw [search, hlimit, if_neg (by omega)]
  | cons c rest ih =>
    have hroom := c.room_le
    have hfit : (h.used (h.heap_ptr + total pre) = 0 ∧ size ≤ room h (total pre)) ↔
        c.used = false ∧ size + 16 ≤ c.size := by
      have hused : h.used (h.heap_ptr + total pre) = usedWord c.used := hs.header.used
      rw [hs.room_eq, hused]
      refine and_congr ?_ (by omega)
      cases c.used <;> simp [usedWord]
    by_cases hlt : total pre < h.mem_size_aligned - size
    · by_cases hc : c.used = false ∧ size + 16 ≤ c.size
      · refine Returns.stop (a := some (total pre)) rfl (fun k => ?_) ?_
        · rw [search, hlimit, if_pos hlt]
          simp only
          rw [if_pos (hfit.mpr hc)]
        · have hbelow : total pre + size < h.mem_size_aligned := by omega
          rw [found, firstFit, if_pos hc, Option.filter_some, if_pos (by simpa using hbelow)]
      · have hnext : h.next (h.heap_ptr + total pre) = total (pre ++ [c]) := by
          rw [total_append, total_cons, total_nil]
          exact hs.header.next
        have hs' : Shape h ((pre ++ [c]) ++ rest) := by simpa using hs
        refine (Returns.step rfl (fun k => ?_) (ih hs')).weaken fun r hr => ?_
        · rw [search, hlimit, if_pos hlt]
          simp only
          rw [if_neg (mt hfit.mp hc), hnext]
        · have hstart : total (pre ++ [c]) = total pre + c.size := by simp
          rw [hr, found, found, firstFit, if_neg hc, hstart]
    · -- from here on every block lies behind the limit
      refine Returns.stop (a := none) rfl (fun k => ?_) ?_
      · rw [search, hlimit, if_neg hlt]
      · symm
        refine Option.filter_eq_none_iff.mpr fun p hp => ?_
        obtain ⟨mid, -, -, -, rfl, -⟩ := firstFit_eq_some hp
        simp
        omega

/-- The walk from a block to the first free block at or behind it. -/
theorem nextFree_returns (hs : Shape h (pre ++ rest)) :
    Returns (fun fuel => nextFree h fuel (h.heap_ptr + total pre)) rest.length
      fun r => r = h.heap_ptr + firstFree (total pre) rest := by
  have hend := hs.end_eq
  induction rest generalizing pre with
  | nil =>
    have htotal := hs.total_eq
    rw [List.append_nil] at htotal
    refine Returns.stop (a := h.heap_ptr + total pre) rfl (fun k => ?_) rfl
    rw [nextFree, if_neg (by omega)]
  | cons c rest ih =>
    have hsum := hs.sum
    have hroom := c.room_le
    have hused : h.used (h.heap_ptr + total pre) = usedWord c.used := hs.header.used
    have hne : h.heap_ptr + total pre ≠ h.heap_end := by omega
    cases hcu : c.used with
    | false =>
      refine Returns.stop (a := h.heap_ptr + total pre) rfl (fun k => ?_) ?_
      · rw [nextFree, if_neg (by simp [hused, hcu, usedWord])]
      · simp [firstFree, hcu]
    | true =>
      have hnext : h.next (h.heap_ptr + total pre) = total (pre ++ [c]) := by
        rw [total_append, total_cons, total_nil]
        exact hs.header.next
      have hs' : Shape h ((pre ++ [c]) ++ rest) := by simpa using hs
      refine (Returns.step rfl (fun k => ?_) (ih hs')).weaken fun r hr => ?_
      · rw [nextFree, if_pos ⟨by simp [hused, hcu, usedWord], hne⟩, hnext]
      · rw [hr]
        simp [firstFree, hcu]

end Search

section Take

variable {h : Heap} {pre post : List Blk} {c : Blk} {size : Nat}

/-- The free block `c` with the run `post` behind it becomes the block `n` in use with `tail` behind
it, for `size` bytes. -/
structure Taken (c : Blk) (post : List Blk) (size : Nat) (n : Blk) (tail : List Blk) : Prop where
  used : n.used = true
  room : size + 16 ≤ n.size
  le : n.size ≤ c.size
  starts : ∀ o, usedStarts (o + n.size) tail = usedStarts (o + c.size) post
  owned : ∀ o i, Owned (o + n.size) tail i ↔ Owned (o + c.size) post i
  kept : ∀ b ∈ tail, b.used = true → b ∈ post

/-- The whole block is taken. -/
theorem Taken.whole (post : List Blk) (hroom : size + 16 ≤ c.size) :
    Taken c post size (c.mark true) post :=
  ⟨rfl, hroom, Nat.le_refl _, fun _ => rfl, fun _ _ => Iff.rfl, fun _ hb _ => hb⟩

/-- The first part of the block is taken and the rest stays free. -/
theorem Taken.part {n d : Blk} (post : List Blk) (hroom : size + 16 ≤ n.size) (hd : d.used = false)
    (hsize : n.size + d.size = c.size) : Taken c post size (n.mark true) (d :: post) where
  used := rfl
  room := hroom
  le := by rw [Block.mark_size]; omega
  starts o := by rw [usedStarts_cons_free hd, Block.mark_size, Nat.add_assoc, hsize]
  owned o i := by rw [Owned.cons_free hd, Block.mark_size, Nat.add_assoc, hsize]
  kept b hb hbu := by
    rcases List.mem_cons.mp hb with rfl | hb
    · simp [hd] at hbu
    · exact hb

/-- What marking a block used leaves to be done: `lfree` still has its old value. -/
structure Occupied (h h' : Heap) (pre : List Blk) (c : Blk) (post : List Blk) (size : Nat)
    (n : Blk) (tail : List Blk) : Prop where
  shape : Shape h' (pre ++ n :: tail)
  same : SameArena h h'
  lfree : h'.lfree = h.lfree
  used_mem : h'.used_mem = usedTotal (pre ++ n :: tail)
  taken : Taken c post size n tail
  coalesced : Coalesced (n :: tail)
  keeps : Keeps h h' (pre ++ c :: post)

/-- A write to the header of a free block leaves the blocks in use alone. -/
theorem keeps_free_header {g : Heap} {m : Bytes} {a w v : Nat} (hc : c.used = false)
    (hk : Keeps h g (pre ++ c :: post)) (hm : m = g.bytes.store a w v)
    (hlo : h.heap_ptr + total pre ≤ a) (hhi : a + w ≤ h.heap_ptr + total pre + 16) :
    Keeps h { g with bytes := m } (pre ++ c :: post) := by
  have hroom := c.room_le
  intro i hi
  rw [← hk i hi]
  rw [Owned.append, Owned.cons_free hc] at hi
  have hout : i < a ∨ a + w ≤ i := by
    rcases hi with hi | hi
    · have := hi.bounds
      omega
    · have := hi.bounds
      omega
  subst hm
  exact Bytes.store_outside hout

/-- Marking the block `b` of `g` and counting `k` units for it. -/
theorem Occupied.of_mark {g : Heap} {b : Blk} {tail : List Blk} {k : Nat}
    (hs : Shape g (pre ++ b :: tail)) (hsame : SameArena h g) (hlf : g.lfree = h.lfree)
    (hum : add32 g.used_mem k = usedTotal (pre ++ b.mark true :: tail))
    (ht : Taken c post size (b.mark true) tail) (hco : Coalesced tail) (hc : c.used = false)
    (hk : Keeps h g (pre ++ c :: post)) :
    Occupied h (count (g.setUsed (h.heap_ptr + total pre) 1) k) pre c post size (b.mark true)
      tail where
  shape := by
    rw [← hsame.heap_ptr]
    exact (hs.setUsed true).congr rfl rfl rfl rfl
  same := ⟨hsame.heap_ptr, hsame.size⟩
  lfree := hlf
  used_mem := hum
  taken := ht
  coalesced := hco.cons_used rfl
  keeps := keeps_free_header hc hk rfl (by omega) (by omega)

theorem occupy_spec (hh : Holds h (pre ++ c :: post)) (hc : c.used = false)
    (hroom : size + 16 ≤ c.size) (h8 : 8 ∣ size) :
    ∃ n tail, Occupied h (occupy h size (total pre)) pre c post size n tail := by
  have hsum := hh.sum
  have hfits := hh.fits
  have hue := hh.used_eq
  have hle := usedTotal_le pre
  have hle' := usedTotal_le post
  have hpost : Coalesced post := hh.coalesced.right.tail
  rw [usedTotal_append, usedTotal_cons, hc] at hue
  simp only [Bool.false_eq_true, if_false, Nat.zero_add] at hue
  unfold occupy
  rw [hh.room_eq, SIZEOF_STRUCT_MEM_eq, MIN_SIZE_ALIGNED_eq, add32_of_lt (show size + 16 < _ by omega),
    add32_of_lt (show size + 16 + 16 < _ by omega), add32_of_lt (show total pre + 16 < _ by omega),
    add32_of_lt (show total pre + 16 + size < _ by omega)]
  by_cases hsplit : size + 16 + 16 ≤ c.size - 16
  · -- the rest of a large block becomes a free block
    simp only [if_pos hsplit]
    let n : Blk := ⟨size + 16, false, by omega, by omega⟩
    let d : Blk := ⟨c.size - (size + 16), false, by omega, Nat.dvd_sub c.align_dvd (by omega)⟩
    have hsize : c.size = n.size + d.size := by simp [n, d]; omega
    have hs := hh.toShape.split hsize hc.symm rfl
    have hk : Keeps h (split h (total pre) (total pre + n.size)) (pre ++ c :: post) := by
      intro i hi
      refine hh.toShape.split_keeps hsize (Or.inl ?_)
      rw [Owned.append, Owned.cons_free hc] at hi
      rw [Owned.append, Owned.cons_free (Block.mark_used c false)]
      exact hi
    rw [show total pre + n.size = total pre + 16 + size by simp [n]; omega] at hs hk
    refine ⟨n.mark true, d :: post, Occupied.of_mark hs ⟨split_heap_ptr .., split_size ..⟩
      (split_lfree ..) ?_ (Taken.part post (Nat.le_refl _) rfl hsize.symm) ?_ hc hk⟩
    · rw [split_used_mem, add32_of_lt (by omega), hue]
      simp [n, d]
      omega
    · exact hpost.cons_free (hh.coalesced.right.head_used hc)
  · simp only [if_neg hsplit]
    have hnext : (h.setUsed (h.heap_ptr + total pre) 1).next (h.heap_ptr + total pre) =
        total pre + c.size := (hh.toShape.setUsed true).header.next
    have hsize : sub32 (total pre + c.size) (h.heap_ptr + total pre -
        (h.setUsed (h.heap_ptr + total pre) 1).heap_ptr) = c.size := by
      rw [show (h.setUsed (h.heap_ptr + total pre) 1).heap_ptr = h.heap_ptr from rfl,
        Nat.add_sub_cancel_left, sub32_of_le (by omega) (by omega), Nat.add_sub_cancel_left]
    rw [hnext, hsize]
    refine ⟨c.mark true, post, Occupied.of_mark hh.toShape (SameArena.refl h) rfl ?_
      (Taken.whole post hroom) hpost hc (Keeps.refl h _)⟩
    rw [add32_of_lt (by omega), hue]
    simp
    omega

/-- The first free block of a run whose block at `total pre` stops being free. -/
theorem firstFree_occupy (post : List Blk) {n : Blk} {tail : List Blk} (hc : c.used = false) :
    firstFree 0 (pre ++ n :: tail) =
      if total pre = firstFree 0 (pre ++ c :: post) then firstFree (total pre) (n :: tail)
      else firstFree 0 (pre ++ c :: post) := by
  cases hall : pre.all Block.used with
  | true =>
    rw [firstFree_append_of_used hall, firstFree_append_of_used hall, Nat.zero_add]
    simp [firstFree, hc]
  | false =>
    have hlt := firstFree_lt (o := 0) (by decide) hall
    rw [firstFree_append_of_free hall, firstFree_append_of_free hall, if_neg (by omega)]

theorem advance_returns {n : Blk} {tail : List Blk} {mem : Nat}
    (hs : Shape h (pre ++ n :: tail)) (hat : mem = h.heap_ptr + total pre)
    (hlf : h.lfree = h.heap_ptr + firstFree 0 (pre ++ c :: post)) (hc : c.used = false) :
    Returns (fun fuel => advance fuel h mem) (n :: tail).length
      fun h' => h' = { h with lfree := h.heap_ptr + firstFree 0 (pre ++ n :: tail) } := by
  subst hat
  unfold advance
  rw [firstFree_occupy post hc]
  by_cases heq : total pre = firstFree 0 (pre ++ c :: post)
  · have hmem : h.heap_ptr + total pre = h.lfree := by rw [hlf, ← heq]
    simp only [if_pos heq, ← hmem]
    refine (nextFree_returns hs).bind fun l hl => ?_
    subst hl
    -- the walk stops at the sentinel or at a free block
    have hstop : h.heap_ptr + firstFree (total pre) (n :: tail) = h.heap_end ∨
        h.used (h.heap_ptr + firstFree (total pre) (n :: tail)) = 0 := by
      cases hall : (n :: tail).all Block.used with
      | true =>
        have := firstFree_append_of_used (o := total pre) hall []
        rw [List.append_nil] at this
        have hend := hs.end_eq
        have hte := hs.total_eq
        rw [total_append] at hte
        rw [this, firstFree]
        exact Or.inl (by omega)
      | false =>
        obtain ⟨x, hx, hxu⟩ := firstFree_split (o := total pre) hall
        obtain ⟨mid, last, hcut, hoff⟩ := mem_placed.mp hx
        have hs' : Shape h ((pre ++ mid) ++ x :: last) := by
          rw [List.append_assoc, ← hcut]
          exact hs
        have hused := hs'.header.used
        rw [total_append, ← hoff, hxu] at hused
        exact Or.inr hused
    rw [RT_ASSERT_true hstop]
    exact Returns.const rfl
  · have hmem : h.heap_ptr + total pre ≠ h.lfree := by rw [hlf]; omega
    simp only [if_neg hmem, if_neg heq]
    refine Returns.const ?_
    rw [← hlf]

/-- What a successful allocation of `size` bytes does: a free block becomes used. -/
structure Allocated (h : Heap) (bs : List Blk) (size : Nat) (h' : Heap) (p : Nat) : Prop where
  same : SameArena h h'
  keeps : Keeps h h' bs
  blocks : ∃ pre c post n tail, bs = pre ++ c :: post ∧ c.used = false ∧
    Holds h' (pre ++ n :: tail) ∧ Taken c post size n tail ∧ p = h.heap_ptr + total pre + 16

theorem Taken.mem_usedStarts {n : Blk} {tail : List Blk} (pre : List Blk)
    (ht : Taken c post size n tail) (hc : c.used = false) (q : Nat) :
    q ∈ usedStarts 0 (pre ++ n :: tail) ↔ q ∈ usedStarts 0 (pre ++ c :: post) ∨ q = total pre := by
  rw [usedStarts_append, usedStarts_cons_used ht.used, usedStarts_append, usedStarts_cons_free hc,
    Nat.zero_add, ht.starts]
  simp only [List.mem_append, List.mem_cons]
  tauto

theorem take_returns (hh : Holds h (pre ++ c :: post)) (hc : c.used = false)
    (hroom : size + 16 ≤ c.size) (h8 : 8 ∣ size) (h16 : 16 ≤ size) :
    Returns (fun fuel => take fuel h size (total pre)) (h.mem_size_aligned + 16)
      fun r => r.2 = some (h.heap_ptr + total pre + 16) ∧
        Allocated h (pre ++ c :: post) size r.1 (h.heap_ptr + total pre + 16) := by
  obtain ⟨n, tail, ho⟩ := occupy_spec hh hc hroom h8
  have hsum := ho.shape.sum
  have hend := ho.shape.end_eq
  have halign := hh.align
  have hpre8 := align_dvd_total pre
  have hnr := ho.taken.room
  have hs : Shape ((occupy h size (total pre)).setMagic (h.heap_ptr + total pre) HEAP_MAGIC)
      (pre ++ n :: tail) := by
    rw [← ho.same.heap_ptr]
    exact ho.shape.setMagic
  have hptr : ((occupy h size (total pre)).setMagic (h.heap_ptr + total pre) HEAP_MAGIC).heap_ptr =
      h.heap_ptr := ho.same.heap_ptr
  have hlf : ((occupy h size (total pre)).setMagic (h.heap_ptr + total pre) HEAP_MAGIC).lfree =
      ((occupy h size (total pre)).setMagic (h.heap_ptr + total pre) HEAP_MAGIC).heap_ptr +
        firstFree 0 (pre ++ c :: post) := by
    rw [hptr]
    exact ho.lfree.trans hh.lfree_eq
  have hadv := advance_returns hs (by rw [hptr]) hlf hc
  have hlen : (n :: tail).length ≤ h.mem_size_aligned + 16 := by
    have := length_le_total (by decide) (n :: tail)
    have hle := ho.shape.total_eq
    rw [ho.same.size, total_append] at hle
    omega
  rw [ho.same.size] at hsum hend
  rw [ho.same.heap_ptr] at hend
  unfold take
  refine Returns.bind (hadv.more hlen) fun g hg => ?_
  have hholds : Holds g (pre ++ n :: tail) := by
    subst hg
    refine ⟨⟨hs.congr rfl rfl rfl rfl, ?_, ho.used_mem, fun b hb hbu => ?_⟩, ?_⟩
    · rfl
    · rcases List.mem_append.mp hb with hb | hb
      · exact hh.used_room b (by simp [hb]) hbu
      · rcases List.mem_cons.mp hb with rfl | hb
        · omega
        · exact hh.used_room b (by simp [ho.taken.kept b hb hbu]) hbu
    · exact hh.coalesced.left.insert_used ho.coalesced.tail ho.taken.used
  have hkeeps : Keeps h g (pre ++ c :: post) := by
    subst hg
    exact keeps_free_header hc ho.keeps rfl (by omega) (by omega)
  have hsame : SameArena h g := by
    subst hg
    exact ⟨ho.same.heap_ptr, ho.same.size⟩
  have hgend : g.heap_end = h.heap_ptr + (h.mem_size_aligned + 16) := by
    subst hg
    exact hend
  rw [SIZEOF_STRUCT_MEM_eq, RT_ASSERT_true (by omega),
    RT_ASSERT_true (by rw [RT_ALIGN_SIZE_eq]; omega), RT_ASSERT_true (land_align (by omega))]
  exact Returns.const ⟨rfl, hsame, hkeeps, pre, c, post, n, tail, rfl, hc, hholds, ho.taken, rfl⟩

end Take

/-- The size that `rt_malloc(size)` looks for: `size` rounded up, and at least the minimum. -/
def request (size : Nat) : Nat :=
  let size := RT_ALIGN size RT_ALIGN_SIZE
  if size < MIN_SIZE_ALIGNED then MIN_SIZE_ALIGNED else size

theorem request_bounds (size : Nat) :
    16 ≤ request size ∧ 8 ∣ request size ∧ RT_ALIGN size 8 ≤ request size := by
  have hdvd := RT_ALIGN_eight_dvd size
  simp only [request, RT_ALIGN_SIZE_eq, MIN_SIZE_ALIGNED_eq]
  split
  · omega
  · omega

theorem le_request {size : Nat} (hsize : size ≤ 2 ^ 32 - 8) : size ≤ request size := by
  have := request_bounds size
  have := RT_ALIGN_eight hsize
  omega

/-- The offset of the block that `rt_malloc(size)` takes. -/
def chosen (h : Heap) (bs : List Blk) (size : Nat) : Option Nat :=
  if size = 0 then none else found h (request size) 0 bs

/-- What `rt_malloc(size)` may give: nothing, or a block. -/
def MallocPost (h : Heap) (bs : List Blk) (size : Nat) (r : Heap × Option Nat) : Prop :=
  (r = (h, none) ∧ chosen h bs size = none) ∨
    ∃ o, chosen h bs size = some o ∧ r.2 = some (h.heap_ptr + o + 16) ∧
      Allocated h bs (request size) r.1 (h.heap_ptr + o + 16)

/-- The search starts at a block, and every block before it is in use. -/
theorem firstFree_cut (bs : List Blk) :
    ∃ pre rest, bs = pre ++ rest ∧ firstFree 0 bs = total pre ∧ pre.all Block.used = true := by
  cases hall : bs.all Block.used with
  | true =>
    have := firstFree_append_of_used (o := 0) hall []
    rw [List.append_nil] at this
    exact ⟨bs, [], by simp, by rw [this, firstFree, Nat.zero_add], hall⟩
  | false =>
    obtain ⟨b, hb, -⟩ := firstFree_split (o := 0) hall
    obtain ⟨pre, post, rfl, hoff⟩ := mem_placed.mp hb
    rw [Nat.zero_add] at hoff
    refine ⟨pre, b :: post, rfl, hoff, ?_⟩
    cases hpre : pre.all Block.used with
    | true => rfl
    | false =>
      have hlt := firstFree_lt (o := 0) (by decide) hpre
      rw [firstFree_append_of_free hpre] at hoff
      omega

/-- No block of an arena has room for more than the arena. -/
theorem found_eq_none {h : Heap} {bs : List Blk} {size : Nat} (hs : Shape h bs)
    (hsize : h.mem_size_aligned < size) : found h size 0 bs = none := by
  have hnone : firstFit (size + 16) 0 bs = none := by
    refine firstFit_eq_none.mpr fun b hb _ => ?_
    obtain ⟨pre, post, rfl⟩ := List.append_of_mem hb
    have := hs.sum
    omega
  rw [found, hnone]
  rfl

/-- `rt_malloc` returns for a size that is out of range, or when the arena has room for the minimum
size. -/
theorem rt_malloc_spec {h : Heap} {bs : List Blk} {size : Nat} (hh : Holds h bs)
    (hfit : size = 0 ∨ h.mem_size_aligned < RT_ALIGN size 8 ∨ 16 ≤ h.mem_size_aligned) :
    Returns (fun fuel => rt_malloc fuel h size) (h.mem_size_aligned + 16)
      (MallocPost h bs size) := by
  by_cases hzero : size = 0
  · simp only [rt_malloc, if_pos hzero]
    exact Returns.const (Or.inl ⟨rfl, if_pos hzero⟩)
  obtain ⟨hreq16, hreq8, hreqal⟩ := request_bounds size
  have hchosen : chosen h bs size = found h (request size) 0 bs := if_neg hzero
  have hte := hh.total_eq
  simp only [rt_malloc, if_neg hzero, RT_ALIGN_SIZE_eq, MIN_SIZE_ALIGNED_eq]
  by_cases hbig : h.mem_size_aligned < RT_ALIGN size 8
  · simp only [if_pos hbig]
    exact Returns.const (Or.inl ⟨rfl, hchosen.trans (found_eq_none hh.toShape (by omega))⟩)
  simp only [if_neg hbig]
  have hreqdef : (if RT_ALIGN size 8 < 16 then 16 else RT_ALIGN size 8) = request size := by
    simp only [request, RT_ALIGN_SIZE_eq, MIN_SIZE_ALIGNED_eq]
  have hreqle : request size ≤ h.mem_size_aligned := by
    rw [← hreqdef]
    split <;> omega
  rw [hreqdef]
  obtain ⟨pre, rest, rfl, hcut, hall⟩ := firstFree_cut bs
  have hstart : h.lfree - h.heap_ptr = total pre := by rw [hh.lfree_eq, hcut]; omega
  have hlen := length_le_total (by decide) (pre ++ rest)
  rw [List.length_append, hte] at hlen
  rw [hstart]
  have hsearch := (search_returns hh.toShape hreqle).more
    (show rest.length ≤ h.mem_size_aligned + 16 by omega)
  refine hsearch.bind fun r hr => ?_
  have hr' : r = chosen h (pre ++ rest) size := by
    rw [hr, hchosen, found, found, firstFit_append_of_used hall, Nat.zero_add]
  cases r with
  | none => exact Returns.const (Or.inl ⟨rfl, hr'.symm⟩)
  | some ptr =>
    obtain ⟨hptr, -⟩ := Option.filter_eq_some_iff.mp (hchosen ▸ hr'.symm)
    obtain ⟨pre', c, post, hbs, hoff, hc, hroom, -⟩ := firstFit_eq_some hptr
    rw [Nat.zero_add] at hoff
    subst hoff
    rw [hbs] at hh hr' ⊢
    refine (take_returns hh hc hroom hreq8 hreq16).weaken fun r hp => Or.inr ?_
    exact ⟨total pre', hr'.symm, hp.1, hp.2⟩

/-- In an arena without room for the minimum size the search comes to the sentinel, whose `next` is
the sentinel, and stays there. -/
theorem search_diverges {h : Heap} {b : Blk} (hs : Shape h [b]) (hmem : h.mem_size_aligned < 16)
    (fuel : Nat) :
    search h 16 fuel (h.mem_size_aligned + 16) = none ∧ search h 16 fuel 0 = none := by
  have hs' : Shape h ([] ++ b :: []) := hs
  have hsum := hs'.sum
  have hroom := hs'.room_eq
  have hnext : h.next (h.heap_ptr + 0) = 0 + b.size := hs'.header.next
  have hsused : h.used (h.heap_ptr + (h.mem_size_aligned + 16)) = 1 := by
    rw [← hs.end_eq]
    exact hs.end_used
  have hsnext : h.next (h.heap_ptr + (h.mem_size_aligned + 16)) = h.mem_size_aligned + 16 := by
    rw [← hs.end_eq]
    exact hs.end_next
  have hlimit : sub32 h.mem_size_aligned 16 = 2 ^ 32 - 16 + h.mem_size_aligned := by
    rw [sub32]
    omega
  rw [total_nil] at hsum hroom
  induction fuel with
  | zero => exact ⟨rfl, rfl⟩
  | succ fuel ih =>
    constructor
    · rw [search, hlimit, if_pos (by omega)]
      dsimp only
      rw [if_neg (by simp [hsused]), hsnext]
      exact ih.1
    · rw [search, hlimit, if_pos (by omega)]
      dsimp only
      rw [if_neg (by rw [hroom]; omega), hnext, show 0 + b.size = h.mem_size_aligned + 16 by omega]
      exact ih.1

/-- `rt_malloc` of a size in range does not return from an arena without room for the minimum
size. -/
theorem rt_malloc_diverges {h : Heap} {bs : List Blk} {size : Nat} (hh : Holds h bs)
    (hz : size ≠ 0) (hle : RT_ALIGN size 8 ≤ h.mem_size_aligned) (hmem : h.mem_size_aligned < 16)
    (fuel : Nat) : rt_malloc fuel h size = none := by
  have hte := hh.total_eq
  obtain ⟨b, rfl⟩ : ∃ b, bs = [b] := by
    match bs, hte with
    | [], hte => simp at hte
    | [b], _ => exact ⟨b, rfl⟩
    | a :: b :: rest, hte =>
      have ha := a.room_le
      have hb := b.room_le
      simp only [total_cons] at hte
      omega
  obtain ⟨hend, hstart⟩ := search_diverges hh.toShape hmem fuel
  have hreq : (if RT_ALIGN size 8 < 16 then 16 else RT_ALIGN size 8) = 16 := if_pos (by omega)
  simp only [rt_malloc, if_neg hz, RT_ALIGN_SIZE_eq, MIN_SIZE_ALIGNED_eq, hreq]
  rw [if_neg (by omega)]
  have hlf : h.lfree - h.heap_ptr = 0 ∨ h.lfree - h.heap_ptr = h.mem_size_aligned + 16 := by
    rw [hh.lfree_eq, ← hte]
    simp only [firstFree, total_cons, total_nil]
    split <;> omega
  rcases hlf with hlf | hlf
  · rw [hlf, hstart]
    rfl
  · rw [hlf, hend]
    rfl

/-- Whatever `rt_malloc` returns, for any size. -/
theorem rt_malloc_post {h : Heap} {bs : List Blk} {size fuel : Nat} {r : Heap × Option Nat}
    (hh : Holds h bs) (hr : rt_malloc fuel h size = some r) : MallocPost h bs size r := by
  by_cases hfit : size = 0 ∨ h.mem_size_aligned < RT_ALIGN size 8 ∨ 16 ≤ h.mem_size_aligned
  · exact (rt_malloc_spec hh hfit).post hr
  · rw [rt_malloc_diverges hh (by omega) (by omega) (by omega)] at hr
    simp at hr

/-- An arena without room for the minimum size gives nothing away. -/
theorem rt_malloc_none {h : Heap} {bs : List Blk} {size fuel : Nat} {r : Heap × Option Nat}
    (hh : Holds h bs) (hmem : h.mem_size_aligned < 16) (hr : rt_malloc fuel h size = some r) :
    r = (h, none) := by
  have hreq := request_bounds size
  rcases rt_malloc_post hh hr with ⟨rfl, -⟩ | ⟨o, ho, -⟩
  · rfl
  · rw [chosen, found_eq_none hh.toShape (by omega)] at ho
    simp at ho

/-- `rt_malloc` returns unless the arena has room for 8 bytes only. -/
theorem rt_malloc_returns {h : Heap} {bs : List Blk} {size : Nat} (hh : Holds h bs)
    (hsize : size ≤ 2 ^ 32 - 8) (h8 : h.mem_size_aligned ≠ 8) :
    Returns (fun fuel => rt_malloc fuel h size) (h.mem_size_aligned + 16)
      (MallocPost h bs size) := by
  have halign := RT_ALIGN_eight hsize
  have hte := hh.total_eq
  have htotal := align_dvd_total bs
  exact rt_malloc_spec hh (by omega)

end Ab32Vg1.Kernel.Mem
