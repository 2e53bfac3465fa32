import Ab32Vg1.Kernel.MemBlocks

/-! What each operation of the allocator does to the tiling of the arena. -/

namespace Ab32Vg1.Kernel.Mem

open ProofKit ProofKit.Tiling

section Plug

variable {h : Heap} {pre post : List Blk} {b : Blk}

theorem Counted.combine {a : Blk} (hc : Counted h (pre ++ a :: b :: post)) (ha : a.used = false)
    (hb : b.used = false) :
    Counted (Mem.combine h (h.heap_ptr + total pre) (h.heap_ptr + (total pre + a.size)))
      (pre ++ a.join b :: post) where
  toShape := hc.toShape.combine ha
  lfree_eq := by
    have hroom := a.room_le
    have hle := firstFree_le_of_free (o := 0) pre (b :: post) ha
    rw [firstFree_join 0 pre post ha]
    show (if h.lfree = _ then _ else h.lfree) = h.heap_ptr + _
    rw [if_neg (by rw [hc.lfree_eq]; omega), hc.lfree_eq]
  used_eq := by
    rw [usedTotal_join pre post ha hb]
    exact hc.used_eq
  used_room := by
    intro c hm hcu
    rcases List.mem_append.mp hm with hm | hm
    · exact hc.used_room c (by simp [hm]) hcu
    · rcases List.mem_cons.mp hm with rfl | hm
      · simp at hcu
      · exact hc.used_room c (by simp [hm]) hcu

/-- What coalescing a free block with its neighbours keeps: which blocks are in use, what they
hold, and the free space. -/
structure Plugged (h h' : Heap) (bs bs' : List Blk) : Prop where
  counted : Counted h' bs'
  starts : usedStarts 0 bs' = usedStarts 0 bs
  heap_ptr : h'.heap_ptr = h.heap_ptr
  size : h'.mem_size_aligned = h.mem_size_aligned
  keeps : Keeps h h' bs
  owned : ∀ o i, Owned o bs' i ↔ Owned o bs i
  covers : ∀ lo hi, InFree 0 bs lo hi → InFree 0 bs' lo hi

theorem Plugged.refl {bs : List Blk} (hc : Counted h bs) : Plugged h h bs bs :=
  ⟨hc, rfl, rfl, rfl, Keeps.refl h bs, fun _ _ => Iff.rfl, fun _ _ hf => hf⟩

theorem Plugged.trans {h1 h2 h3 : Heap} {bs1 bs2 bs3 : List Blk} (hp : Plugged h1 h2 bs1 bs2)
    (hq : Plugged h2 h3 bs2 bs3) : Plugged h1 h3 bs1 bs3 where
  counted := hq.counted
  starts := hq.starts.trans hp.starts
  heap_ptr := hq.heap_ptr.trans hp.heap_ptr
  size := hq.size.trans hp.size
  keeps := hp.keeps.trans hq.keeps hp.heap_ptr fun i hi => (hp.owned _ i).mpr hi
  owned o i := (hq.owned o i).trans (hp.owned o i)
  covers lo hi hf := hq.covers lo hi (hp.covers lo hi hf)

theorem Counted.plugged {a : Blk} (hc : Counted h (pre ++ a :: b :: post)) (ha : a.used = false)
    (hb : b.used = false) :
    Plugged h (Mem.combine h (h.heap_ptr + total pre) (h.heap_ptr + (total pre + a.size)))
      (pre ++ a :: b :: post) (pre ++ a.join b :: post) where
  counted := hc.combine ha hb
  starts := usedStarts_join pre post ha hb
  heap_ptr := rfl
  size := rfl
  keeps := hc.combine_keeps ha hb
  owned _ _ := Owned.join ha hb
  covers _ _ hf := hf.join

/-- The forward half joins the block with a free block behind it. -/
theorem plugForward_spec (hc : Counted h (pre ++ b :: post)) (hb : b.used = false)
    (hpost : Coalesced post) :
    ∃ b' post', Plugged h (plugForward h (h.heap_ptr + total pre)) (pre ++ b :: post)
      (pre ++ b' :: post') ∧ b'.used = false ∧ Coalesced post' ∧
      ∀ x ∈ post'.head?, x.used = true := by
  have hnext : h.next (h.heap_ptr + total pre) = total pre + b.size := hc.header.next
  have hroom := b.room_le
  have hsum := hc.sum
  have hend := hc.end_eq
  unfold plugForward
  simp only [hnext]
  cases post with
  | nil =>
    rw [total_nil] at hsum
    rw [if_neg (by omega)]
    exact ⟨b, [], Plugged.refl hc, hb, hpost, by simp⟩
  | cons c post =>
    have hs : Shape h ((pre ++ [b]) ++ c :: post) := by simpa using hc.toShape
    have hused := hs.header.used
    rw [show total (pre ++ [b]) = total pre + b.size by simp] at hused
    have hcroom := c.room_le
    rw [total_cons] at hsum
    cases hcu : c.used with
    | true =>
      rw [if_neg (by simp only [Heap.used, hused, hcu, usedWord]; simp)]
      exact ⟨b, c :: post, Plugged.refl hc, hb, hpost, by simp [hcu]⟩
    | false =>
      rw [if_pos ⟨by omega, by simp only [Heap.used, hused, hcu, usedWord]; rfl, by omega⟩]
      exact ⟨b.join c, post, hc.plugged hb hcu, rfl, hpost.tail, hpost.head_used hcu⟩

/-- The backward half joins the block with a free block before it. -/
theorem plugBackward_spec (hc : Counted h (pre ++ b :: post)) (hb : b.used = false)
    (hpre : Coalesced pre) :
    ∃ pre' b', Plugged h (plugBackward h (h.heap_ptr + total pre)) (pre ++ b :: post)
      (pre' ++ b' :: post) ∧ b'.used = false ∧ Coalesced pre' ∧
      ∀ x ∈ pre'.getLast?, x.used = true := by
  have hprev : h.prev (h.heap_ptr + total pre) = lastStart 0 0 pre := hc.header.prev
  unfold plugBackward
  simp only [hprev]
  rcases List.eq_nil_or_concat pre with rfl | ⟨pre, a, rfl⟩
  · -- the first block has itself as its predecessor
    rw [if_neg (by simp [lastStart])]
    exact ⟨[], b, Plugged.refl hc, hb, hpre, by simp⟩
  · rw [List.concat_eq_append] at *
    have haroom := a.room_le
    have hc' : Counted h (pre ++ a :: b :: post) := by simpa using hc
    have hused := hc'.header.used
    rw [lastStart_snoc, Nat.zero_add, show total (pre ++ [a]) = total pre + a.size by simp]
    cases hau : a.used with
    | true =>
      rw [if_neg (by simp only [Heap.used, hused, hau, usedWord]; simp)]
      exact ⟨pre ++ [a], b, Plugged.refl hc, hb, hpre, by simp [hau]⟩
    | false =>
      rw [if_pos ⟨by omega, by simp only [Heap.used, hused, hau, usedWord]; rfl⟩]
      refine ⟨pre, a.join b, ?_, rfl, hpre.left, hpre.last_used hau⟩
      rw [List.append_assoc]
      exact hc'.plugged hau hb

theorem plug_holes_spec (hc : Counted h (pre ++ b :: post)) (hb : b.used = false)
    (hpre : Coalesced pre) (hpost : Coalesced post) :
    ∃ h' bs', plug_holes h (h.heap_ptr + total pre) = some h' ∧ Holds h' bs' ∧
      Plugged h h' (pre ++ b :: post) bs' := by
  have hend := hc.end_eq
  have hsum := hc.sum
  have hroom := b.room_le
  have hused := hc.header.used
  obtain ⟨b1, post1, hf, hb1, hpost1, hhead⟩ := plugForward_spec hc hb hpost
  obtain ⟨pre2, b2, hg, hb2, hpre2, hlast⟩ := plugBackward_spec hf.counted hb1 hpre
  rw [hf.heap_ptr] at hg
  refine ⟨_, pre2 ++ b2 :: post1, ?_, ⟨hg.counted, ?_⟩, ?_⟩
  · unfold plug_holes
    rw [RT_ASSERT_true (by omega), RT_ASSERT_true (by omega),
      RT_ASSERT_true (by rw [Heap.used, hused, hb]; rfl)]
    rfl
  · exact hpre2.insert_free hpost1 hlast hhead
  · exact hf.trans hg

end Plug

theorem land_align {x : Nat} (h : 8 ∣ x) : x &&& RT_ALIGN_SIZE - 1 = 0 := by
  rw [show RT_ALIGN_SIZE - 1 = 2 ^ 3 - 1 from rfl, Nat.and_two_pow_sub_one_eq_mod]
  exact Nat.mod_eq_zero_of_dvd h

/-- What an operation keeps of the arena: its place and its size. -/
structure SameArena (h h' : Heap) : Prop where
  heap_ptr : h'.heap_ptr = h.heap_ptr
  size : h'.mem_size_aligned = h.mem_size_aligned

theorem SameArena.refl (h : Heap) : SameArena h h := ⟨rfl, rfl⟩

theorem SameArena.trans {h1 h2 h3 : Heap} (a : SameArena h1 h2) (b : SameArena h2 h3) :
    SameArena h1 h3 := ⟨b.heap_ptr.trans a.heap_ptr, b.size.trans a.size⟩

/-- The first free block after the block at `total pre` becomes free. -/
theorem firstFree_release (base : Nat) (pre post : List Blk) {b : Blk} (hb : b.used = true) :
    base + firstFree 0 (pre ++ b.mark false :: post) =
      if base + total pre < base + firstFree 0 (pre ++ b :: post) then base + total pre
      else base + firstFree 0 (pre ++ b :: post) := by
  have hroom := b.room_le
  have hle := firstFree_mem (0 + total pre + b.size) post
  rw [firstFree_append, firstFree_append]
  cases hall : pre.all Block.used with
  | true =>
    simp only [if_true, firstFree, hb, Block.mark_used, Bool.false_eq_true, if_false]
    rw [if_pos (by omega), Nat.zero_add]
  | false =>
    have hlt := firstFree_lt (o := 0) (by decide) hall
    simp only [Bool.false_eq_true, if_false]
    rw [if_neg (by omega)]

theorem usedTotal_release (pre post : List Blk) {b : Blk} (hb : b.used = true) :
    usedTotal (pre ++ b :: post) = usedTotal (pre ++ b.mark false :: post) + b.size := by
  simp [hb]
  omega

theorem release_counted {h : Heap} {pre post : List Blk} {b : Blk}
    (hc : Counted h (pre ++ b :: post)) (hb : b.used = true) :
    Counted (release h (h.heap_ptr + total pre)) (pre ++ b.mark false :: post) := by
  have hsum := hc.sum
  have hfits := hc.fits
  have hue := hc.used_eq
  have hte := hc.total_eq
  have hle := usedTotal_le (pre ++ b :: post)
  have hrel := usedTotal_release pre post hb
  have hs : Shape ((h.setUsed (h.heap_ptr + total pre) 0).setMagic (h.heap_ptr + total pre)
      HEAP_MAGIC) (pre ++ b.mark false :: post) := (hc.setUsed false).setMagic
  have hnext : (release h (h.heap_ptr + total pre)).next (h.heap_ptr + total pre) =
      total pre + b.size := hs.header.next
  refine ⟨hs.congr rfl rfl rfl rfl, ?_, ?_, fun c hm hcu => ?_⟩
  · rw [show (release h (h.heap_ptr + total pre)).heap_ptr = h.heap_ptr from rfl,
      firstFree_release _ pre post hb, ← hc.lfree_eq]
    rfl
  · show sub32 h.used_mem (sub32 ((release h (h.heap_ptr + total pre)).next _)
      (h.heap_ptr + total pre - h.heap_ptr)) = _
    rw [hnext, Nat.add_sub_cancel_left]
    have hsize : sub32 (total pre + b.size) (total pre) = b.size := by
      rw [sub32_of_le (by omega) (by omega), Nat.add_sub_cancel_left]
    rw [hsize, sub32_of_le (by omega) (by omega), hue, hrel, Nat.add_sub_cancel]
  · rcases List.mem_append.mp hm with hm | hm
    · exact hc.used_room c (by simp [hm]) hcu
    · rcases List.mem_cons.mp hm with rfl | hm
      · simp at hcu
      · exact hc.used_room c (by simp [hm]) hcu

/-- `release` writes to the header of the block. -/
theorem release_keeps (h : Heap) (pre post : List Blk) (b : Blk) :
    Keeps h (release h (h.heap_ptr + total pre)) (pre ++ b.mark false :: post) := by
  have hroom := b.room_le
  intro i hi
  rw [Owned.append, Owned.cons_free (Block.mark_used b false), Block.mark_size] at hi
  have hout : i < h.heap_ptr + total pre ∨ h.heap_ptr + total pre + 16 ≤ i := by
    rcases hi with hi | hi
    · have := hi.bounds
      omega
    · have := hi.bounds
      omega
  exact (Bytes.store_outside (by omega)).trans (Bytes.store_outside (by omega))

/-- What `rt_free` of the block `b` leaves: the other blocks in use with what they hold, and `b` as
free space. -/
structure Freed (h : Heap) (pre : List Blk) (b : Blk) (post : List Blk) (h' : Heap)
    (bs' : List Blk) : Prop where
  holds : Holds h' bs'
  same : SameArena h h'
  starts : ∀ q, q ∈ usedStarts 0 bs' ↔ q ∈ usedStarts 0 (pre ++ b :: post) ∧ q ≠ total pre
  keeps : Keeps h h' (pre ++ b.mark false :: post)
  owned : ∀ o i, Owned o bs' i ↔ Owned o (pre ++ b.mark false :: post) i
  covers : InFree 0 bs' (total pre) (total pre + b.size)

/-- `rt_free` of the user area of a block in use returns, and exactly that block is no longer in
use. -/
theorem rt_free_spec {h : Heap} {pre post : List Blk} {b : Blk} (hh : Holds h (pre ++ b :: post))
    (hb : b.used = true) :
    ∃ h' bs', rt_free h (some (h.heap_ptr + total pre + 16)) = some h' ∧
      Freed h pre b post h' bs' := by
  have hsum := hh.sum
  have hend := hh.end_eq
  have hroom := hh.used_room b (by simp) hb
  have halign := hh.align
  have hpre8 := align_dvd_total pre
  have hd := hh.header
  obtain ⟨h', bs', hplug, hholds, hp⟩ := plug_holes_spec (release_counted hh.toCounted hb) rfl
    hh.coalesced.left hh.coalesced.right.tail
  refine ⟨h', bs', ?_, hholds, ⟨hp.heap_ptr, hp.size⟩, fun q => ?_, ?_, hp.owned, ?_⟩
  · have hmem : h.heap_ptr + total pre + 16 - SIZEOF_STRUCT_MEM = h.heap_ptr + total pre := by simp
    have hused : h.used (h.heap_ptr + total pre) ≠ 0 := by
      rw [Heap.used, hd.used, hb]
      decide
    rw [rt_free, RT_ASSERT_true (land_align (by omega)), RT_ASSERT_true (by omega)]
    simp only [hmem]
    rw [RT_ASSERT_true hused, RT_ASSERT_true (show h.magic _ = _ from hd.magic)]
    exact hplug
  · rw [hp.starts]
    exact mem_usedStarts_release (by decide) hb q
  · exact (release_keeps h pre post b).trans hp.keeps rfl fun _ hi => hi
  · refine hp.covers _ _ ⟨total pre, b.mark false, ?_, rfl, Nat.le_refl _, Nat.le_refl _⟩
    exact mem_placed.mpr ⟨pre, post, rfl, (Nat.zero_add _).symm⟩

end Ab32Vg1.Kernel.Mem
