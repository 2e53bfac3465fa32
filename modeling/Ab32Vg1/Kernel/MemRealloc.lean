import Ab32Vg1.Kernel.MemAlloc

/-! `rt_realloc` and `rt_calloc`.  The effect of every operation is stated on the pointers to the
blocks in use: which one it gives up and which one it returns. -/

namespace Ab32Vg1.Kernel.Mem

open ProofKit ProofKit.Tiling

/-- `p` is the user pointer of a block in use. -/
def LivePtr (h : Heap) (bs : List Blk) (p : Nat) : Prop :=
  ∃ o ∈ usedStarts 0 bs, p = h.heap_ptr + o + 16

/-- An operation gives up the block `dead` and returns the block `got`. -/
structure Effect (h : Heap) (bs : List Blk) (dead got : Option Nat) (h' : Heap) : Prop where
  same : SameArena h h'
  blocks : ∃ bs', Holds h' bs' ∧
    ∀ p, LivePtr h' bs' p ↔ (LivePtr h bs p ∧ some p ≠ dead) ∨ some p = got
  fresh : ∀ p, got = some p → LivePtr h bs p → some p = dead

section

variable {h : Heap} {bs : List Blk}

theorem Effect.nothing (hh : Holds h bs) : Effect h bs none none h :=
  ⟨SameArena.refl h, ⟨bs, hh, by simp⟩, by simp⟩

/-- A block that stays where it is is given up and returned. -/
theorem Effect.keep {h' : Heap} {bs' : List Blk} {p : Nat} (hh : Holds h' bs')
    (hs : SameArena h h') (hst : usedStarts 0 bs' = usedStarts 0 bs) (hp : LivePtr h bs p) :
    Effect h bs (some p) (some p) h' := by
  refine ⟨hs, ⟨bs', hh, fun q => ?_⟩, by simp⟩
  have hiff : LivePtr h' bs' q ↔ LivePtr h bs q := by
    unfold LivePtr
    rw [hst, hs.heap_ptr]
  rw [hiff]
  by_cases hq : q = p
  · simp [hq, hp]
  · simp [hq]

theorem Freed.effect {pre post bs' : List Blk} {b : Blk} {h' : Heap}
    (hf : Freed h pre b post h' bs') :
    Effect h (pre ++ b :: post) (some (h.heap_ptr + total pre + 16)) none h' := by
  refine ⟨hf.same, ⟨bs', hf.holds, fun q => ?_⟩, by simp⟩
  unfold LivePtr
  rw [hf.same.heap_ptr]
  constructor
  · rintro ⟨o', ho', rfl⟩
    obtain ⟨h1, h2⟩ := (hf.starts o').mp ho'
    refine Or.inl ⟨⟨o', h1, rfl⟩, fun heq => h2 ?_⟩
    have := Option.some.inj heq
    omega
  · rintro (⟨⟨o', ho', rfl⟩, hne⟩ | hnone)
    · exact ⟨o', (hf.starts o').mpr ⟨ho', fun heq => hne (by rw [heq])⟩, rfl⟩
    · exact absurd hnone (by simp)

theorem rt_free_effect {p : Nat} (hh : Holds h bs) (hp : LivePtr h bs p) :
    ∃ h', rt_free h (some p) = some h' ∧ Effect h bs (some p) none h' := by
  obtain ⟨o, ho, rfl⟩ := hp
  obtain ⟨pre, b, post, rfl, rfl, hb⟩ := usedStarts_split ho
  obtain ⟨h', bs', hrun, hf⟩ := rt_free_spec hh hb
  exact ⟨h', hrun, hf.effect⟩

theorem Allocated.effect {h' : Heap} {size p : Nat} (ha : Allocated h bs size h' p) :
    Effect h bs none (some p) h' := by
  obtain ⟨hs, -, pre, c, post, n, tail, rfl, hc, hh, ht, rfl⟩ := ha
  have hst := ht.mem_usedStarts pre hc
  refine ⟨hs, ⟨_, hh, fun q => ?_⟩, ?_⟩
  · unfold LivePtr
    rw [hs.heap_ptr]
    constructor
    · rintro ⟨o, ho, rfl⟩
      rcases (hst o).mp ho with ho | rfl
      · exact Or.inl ⟨⟨o, ho, rfl⟩, by simp⟩
      · exact Or.inr rfl
    · rintro (⟨⟨o, ho, rfl⟩, -⟩ | heq)
      · exact ⟨o, (hst o).mpr (Or.inl ho), rfl⟩
      · exact ⟨total pre, (hst _).mpr (Or.inr rfl), Option.some.inj heq⟩
  · rintro q ⟨⟩ ⟨o, ho, heq⟩
    have hfree : total pre ∉ usedStarts 0 (pre ++ c :: post) :=
      free_not_mem_usedStarts (by decide) hc
    rw [show o = total pre by omega] at ho
    exact absurd ho hfree

/-- A run of user bytes of a block may change. -/
theorem Holds.userWrite {pre post : List Blk} {b : Blk} {bytes : Bytes}
    (hh : Holds h (pre ++ b :: post))
    (hout : ∀ lo hi, hi ≤ h.heap_ptr + total pre + 16 ∨ h.heap_ptr + total pre + b.size ≤ lo →
      h.bytes.AgreeOn bytes lo hi) : Holds { h with bytes } (pre ++ b :: post) := by
  have hs : Shape { h with bytes } (pre ++ b :: post) :=
    hh.toShape.userWrite (hout _ _ (Or.inl (Nat.le_refl _))) (hout _ _ (Or.inr (Nat.le_refl _)))
  exact ⟨⟨hs, hh.lfree_eq, hh.used_eq, hh.used_room⟩, hh.coalesced⟩

/-- The first `size` bytes of a new block may change. -/
theorem Allocated.userWrite {h' : Heap} {size p : Nat} {bytes : Bytes}
    (ha : Allocated h bs size h' p)
    (hout : ∀ lo hi, hi ≤ p ∨ p + size ≤ lo → h'.bytes.AgreeOn bytes lo hi) :
    Allocated h bs size { h' with bytes } p := by
  obtain ⟨hs, hk, pre, c, post, n, tail, rfl, hc, hh, ht, rfl⟩ := ha
  have hroom := ht.room
  have hle := ht.le
  have hptr := hs.heap_ptr
  refine ⟨⟨hs.heap_ptr, hs.size⟩, fun i hi => ?_, pre, c, post, n, tail, rfl, hc,
    hh.userWrite fun lo hi hor => hout lo hi (by omega), ht, rfl⟩
  rw [← hk i hi]
  rw [Owned.append, Owned.cons_free hc] at hi
  refine hout i (i + 1) ?_ i (Nat.le_refl i) (Nat.lt_succ_self i)
  rcases hi with hi | hi
  · have := hi.bounds
    omega
  · have := hi.bounds
    omega

/-- `rt_calloc` for a count and a size whose product is a size `rt_malloc` accepts. -/
theorem rt_calloc_returns {count size : Nat} (hh : Holds h bs)
    (hsize : count * size % 2 ^ 32 ≤ 2 ^ 32 - 8) (h8 : h.mem_size_aligned ≠ 8) :
    Returns (fun fuel => rt_calloc fuel h count size) (h.mem_size_aligned + 16)
      fun r => Effect h bs none r.2 r.1 := by
  unfold rt_calloc
  refine (rt_malloc_returns hh hsize h8).bind fun r hr => ?_
  rcases hr with ⟨rfl, -⟩ | ⟨o, -, hp, ha⟩
  · exact Returns.const (Effect.nothing hh)
  · obtain ⟨g, q⟩ := r
    subst hp
    have hle := le_request hsize
    exact Returns.const (ha.userWrite fun lo hi hor => Bytes.fill_agreeOn (by omega)).effect

end

/-! ### What a block holds -/

section Contents

variable {h h' : Heap} {bs : List Blk} {x : Nat}

/-- The block at the user pointer `p` has its size and its contents in `h'` as in `h`. -/
structure SameBlock (h h' : Heap) (p : Nat) : Prop where
  next : h'.next (p - SIZEOF_STRUCT_MEM) = h.next (p - SIZEOF_STRUCT_MEM)
  bytes : ∀ i, p ≤ i → i < h.heap_ptr + h.next (p - SIZEOF_STRUCT_MEM) → h'.bytes i = h.bytes i

theorem SameBlock.refl (h : Heap) (p : Nat) : SameBlock h h p := ⟨rfl, fun _ _ _ => rfl⟩

theorem SameBlock.trans {h1 h2 h3 : Heap} (h12 : SameBlock h1 h2 x) (h23 : SameBlock h2 h3 x)
    (hptr : h2.heap_ptr = h1.heap_ptr) : SameBlock h1 h3 x where
  next := h23.next.trans h12.next
  bytes i hlo hhi := by
    rw [h23.bytes i hlo (by rw [hptr, h12.next]; exact hhi), h12.bytes i hlo hhi]

/-- The block of a live pointer. -/
theorem LivePtr.block (hs : Shape h bs) (hx : LivePtr h bs x) :
    ∃ pre b post, bs = pre ++ b :: post ∧ b.used = true ∧ x = h.heap_ptr + total pre + 16 ∧
      h.next (x - SIZEOF_STRUCT_MEM) = total pre + b.size := by
  obtain ⟨o, ho, rfl⟩ := hx
  obtain ⟨pre, b, post, rfl, rfl, hb⟩ := usedStarts_split ho
  refine ⟨pre, b, post, rfl, hb, rfl, ?_⟩
  rw [SIZEOF_STRUCT_MEM_eq, Nat.add_sub_cancel]
  exact hs.header.next

/-- A block is the same when the bytes it owns are. -/
theorem SameBlock.of_bytes {pre : List Blk} {b : Blk} (hx : x = h.heap_ptr + total pre + 16)
    (hnext : h.next (x - SIZEOF_STRUCT_MEM) = total pre + b.size)
    (hk : ∀ i, h.heap_ptr + total pre + 4 ≤ i ∧ i < h.heap_ptr + total pre + 8 ∨
      h.heap_ptr + total pre + 16 ≤ i ∧ i < h.heap_ptr + total pre + b.size →
      h'.bytes i = h.bytes i) : SameBlock h h' x where
  next := by
    have hat : x - SIZEOF_STRUCT_MEM = h.heap_ptr + total pre := by
      rw [SIZEOF_STRUCT_MEM_eq]
      omega
    rw [hat]
    exact Bytes.load_congr fun i h1 h2 => hk i (Or.inl (by omega))
  bytes i hlo hhi := hk i (Or.inr (by omega))

theorem Keeps.sameBlock (hs : Shape h bs) (hk : Keeps h h' bs) (hx : LivePtr h bs x) :
    SameBlock h h' x := by
  obtain ⟨pre, b, post, rfl, hb, hat, hnext⟩ := hx.block hs
  refine SameBlock.of_bytes hat hnext fun i hi => hk i ?_
  rw [Owned.append]
  exact Or.inr (Or.inl ⟨hb, hi⟩)

/-- Two live blocks do not overlap. -/
theorem LivePtr.apart {pre post pre' post' : List Blk} {b b' : Blk}
    (heq : pre ++ b :: post = pre' ++ b' :: post') (hne : total pre ≠ total pre') :
    total pre + b.size ≤ total pre' ∨ total pre' + b'.size ≤ total pre :=
  placed_disjoint (mem_placed.mpr ⟨pre, post, rfl, (Nat.zero_add _).symm⟩)
    (mem_placed.mpr ⟨pre', post', heq, (Nat.zero_add _).symm⟩) hne

/-- What is kept when one block is given up. -/
theorem Keeps.others {pre post : List Blk} {b : Blk} (hs : Shape h (pre ++ b :: post))
    (hk : Keeps h h' (pre ++ b.mark false :: post)) (hx : LivePtr h (pre ++ b :: post) x)
    (hne : x ≠ h.heap_ptr + total pre + 16) : SameBlock h h' x := by
  obtain ⟨pre', b', post', heq, hb, hat, hnext⟩ := hx.block hs
  have hapart := LivePtr.apart heq (by omega)
  have hroom := b.room_le
  have hroom' := b'.room_le
  refine SameBlock.of_bytes hat hnext fun i hi => hk i ?_
  have howned : Owned h.heap_ptr (pre ++ b :: post) i := by
    rw [heq, Owned.append]
    exact Or.inr (Or.inl ⟨hb, hi⟩)
  rw [Owned.append, Owned.cons_free (Block.mark_used b false)]
  rcases Owned.append.mp howned with hi' | ⟨-, hi'⟩ | hi'
  · exact Or.inl hi'
  · omega
  · exact Or.inr hi'

/-- What a write to the user area of a block keeps. -/
theorem SameBlock.userWrite {pre post : List Blk} {b : Blk} {bytes : Bytes}
    (hs : Shape h (pre ++ b :: post)) (hx : LivePtr h (pre ++ b :: post) x)
    (hne : x ≠ h.heap_ptr + total pre + 16)
    (hout : ∀ lo hi, hi ≤ h.heap_ptr + total pre + 16 ∨ h.heap_ptr + total pre + b.size ≤ lo →
      h.bytes.AgreeOn bytes lo hi) : SameBlock h { h with bytes } x := by
  obtain ⟨pre', b', post', heq, hb, hat, hnext⟩ := hx.block hs
  have hapart := LivePtr.apart heq (by omega)
  have hroom := b'.room_le
  refine SameBlock.of_bytes hat hnext fun i hi => ?_
  exact hout i (i + 1) (by omega) i (Nat.le_refl i) (Nat.lt_succ_self i)

end Contents

@[simp] theorem lowerFree_heap_ptr (h : Heap) (mem : Nat) :
    (lowerFree h mem).heap_ptr = h.heap_ptr := rfl

@[simp] theorem lowerFree_size (h : Heap) (mem : Nat) :
    (lowerFree h mem).mem_size_aligned = h.mem_size_aligned := rfl

theorem Shape.lowerFree {h : Heap} {bs : List Blk} {mem : Nat} (hs : Shape h bs)
    (hlf : h.heap_ptr + firstFree 0 bs = if mem < h.lfree then mem else h.lfree)
    (hum : h.used_mem = usedTotal bs) (hroom : ∀ b ∈ bs, b.used = true → 24 ≤ b.size) :
    Counted (Mem.lowerFree h mem) bs := ⟨hs.congr rfl rfl rfl rfl, hlf.symm, hum, hroom⟩

section Shrink

variable {h : Heap} {pre post : List Blk} {b : Blk} {newsize : Nat}

/-- What giving back the tail of the block `b` leaves: its first `newsize` bytes, and every other
block. -/
structure Shrunk (h : Heap) (pre : List Blk) (b : Blk) (post : List Blk) (newsize : Nat)
    (h' : Heap) : Prop where
  same : SameArena h h'
  blocks : ∃ bs', Holds h' bs' ∧ usedStarts 0 bs' = usedStarts 0 (pre ++ b :: post)
  keeps : Keeps h h' (pre ++ b.mark false :: post)
  next : h'.next (h.heap_ptr + total pre) = total pre + (newsize + 16)
  content : ∀ i, h.heap_ptr + total pre + 16 ≤ i → i < h.heap_ptr + total pre + (newsize + 16) →
    h'.bytes i = h.bytes i

/-- Giving back the tail of a block keeps its user pointer. -/
theorem shrink_spec (hh : Holds h (pre ++ b :: post)) (hb : b.used = true) (h8 : 8 ∣ newsize)
    (hpos : 8 ≤ newsize) (hlt : newsize + 28 < b.size - 16) :
    ∃ h', shrink h (total pre) (b.size - 16) newsize = some h' ∧ Shrunk h pre b post newsize h' := by
  have hsum := hh.sum
  have hfits := hh.fits
  have hue := hh.used_eq
  have hle := usedTotal_le pre
  have hle' := usedTotal_le post
  have hpost : Coalesced post := hh.coalesced.right.tail
  rw [usedTotal_append, usedTotal_cons, hb, if_pos rfl] at hue
  let n : Blk := ⟨newsize + 16, true, by omega, by omega⟩
  let d : Blk := ⟨b.size - (newsize + 16), false, by omega, Nat.dvd_sub b.align_dvd (by omega)⟩
  have hsize : b.size = n.size + d.size := by simp [n, d]; omega
  have hptr2 : add32 (add32 (total pre) SIZEOF_STRUCT_MEM) newsize = total pre + n.size := by
    have h16 : add32 (total pre) 16 = total pre + 16 := add32_of_lt (by omega)
    rw [SIZEOF_STRUCT_MEM_eq, h16, add32_of_lt (by omega)]
    simp [n]
    omega
  have hcut : pre ++ n :: d :: post = (pre ++ [n]) ++ d :: post := by simp
  have htail : total pre + n.size = total (pre ++ [n]) := by simp
  let g : Heap := { h with used_mem := sub32 h.used_mem (b.size - 16 - newsize) }
  have hgs : Shape g (pre ++ b :: post) := hh.toShape.congr rfl rfl rfl rfl
  have hs := hgs.split hsize hb.symm rfl
  -- before the split the tail belonged to a block in use
  have hlf : h.heap_ptr + firstFree 0 (pre ++ n :: d :: post) =
      if h.heap_ptr + (total pre + n.size) < h.lfree then h.heap_ptr + (total pre + n.size)
      else h.lfree := by
    have hold := firstFree_cut_used 0 pre post hb rfl (show (d.mark true).used = true from rfl) hsize
    have hrel := firstFree_release h.heap_ptr (pre ++ [n]) post
      (show (d.mark true).used = true from rfl)
    rw [hh.lfree_eq, ← hold, htail, hcut]
    rw [show (d.mark true).mark false = d from rfl] at hrel
    simpa using hrel
  have hc : Counted (lowerFree (split g (total pre) (total pre + n.size))
      (h.heap_ptr + (total pre + n.size))) (pre ++ n :: d :: post) := by
    refine hs.lowerFree ?_ ?_ fun x hx hxu => ?_
    · rw [split_lfree, split_heap_ptr]
      exact hlf
    · rw [split_used_mem, show g.used_mem = sub32 h.used_mem (b.size - 16 - newsize) from rfl,
        sub32_of_le (by omega) (by omega), hue]
      simp [n, d]
      omega
    · rcases List.mem_append.mp hx with hx | hx
      · exact hh.used_room x (by simp [hx]) hxu
      · rcases List.mem_cons.mp hx with rfl | hx
        · simp [n]
          omega
        · rcases List.mem_cons.mp hx with rfl | hx
          · exact absurd hxu (by simp [d])
          · exact hh.used_room x (by simp [hx]) hxu
  have hnext : (lowerFree (split g (total pre) (total pre + n.size))
      (h.heap_ptr + (total pre + n.size))).next (h.heap_ptr + total pre) = total pre + n.size := by
    have := hc.header.next
    rwa [lowerFree_heap_ptr, split_heap_ptr] at this
  rw [hcut] at hc
  obtain ⟨h', bs', hplug, hholds, hp⟩ := plug_holes_spec hc rfl
    (hh.coalesced.left.insert_used List.isChain_nil rfl) hpost
  have hgptr : (lowerFree (split g (total pre) (total pre + n.size))
      (h.heap_ptr + (total pre + n.size))).heap_ptr = h.heap_ptr := by
    rw [lowerFree_heap_ptr, split_heap_ptr]
  -- coalescing the tail leaves alone what the new block and the others own
  have hkeep : ∀ i, Owned h.heap_ptr (pre ++ b.mark false :: post) i ∨
      (h.heap_ptr + total pre + 4 ≤ i ∧ i < h.heap_ptr + total pre + 8 ∨
        h.heap_ptr + total pre + 16 ≤ i ∧ i < h.heap_ptr + total pre + n.size) →
      h'.bytes i = (split g (total pre) (total pre + n.size)).bytes i := by
    intro i hi
    refine hp.keeps i ?_
    rw [hgptr, ← hcut, Owned.append]
    rw [Owned.append, Owned.cons_free (Block.mark_used b false), Block.mark_size] at hi
    rcases hi with (hi | hi) | hi
    · exact Or.inl hi
    · refine Or.inr (Or.inr ((Owned.cons_free rfl).mpr ?_))
      rwa [Nat.add_assoc, ← hsize]
    · exact Or.inr (Or.inl ⟨rfl, hi⟩)
  refine ⟨h', ?_, ⟨?_, ?_⟩, ⟨bs', hholds, ?_⟩, fun i hi => ?_, ?_, fun i hlo hhi => ?_⟩
  · unfold shrink
    simp only [hptr2]
    rw [← hplug, ← htail]
    simp [lowerFree, g]
  · rw [hp.heap_ptr, hgptr]
  · rw [hp.size, lowerFree_size, split_size]
  · rw [hp.starts, ← hcut]
    exact usedStarts_cut pre post hb rfl rfl hsize
  · rw [hkeep i (Or.inl hi)]
    exact hgs.split_keeps hsize (Or.inl hi)
  · refine (Bytes.load_congr fun i h1 h2 => ?_).trans hnext
    exact hkeep i (Or.inr (Or.inl (by omega)))
  · rw [hkeep i (Or.inr (Or.inr ⟨hlo, hhi⟩))]
    exact hgs.split_keeps hsize (Or.inr ⟨hlo, hhi⟩)

end Shrink

section Realloc

variable {h : Heap} {bs : List Blk}

/-- The block that `rt_realloc` gives up when it returns `got`. -/
def reallocDead (rmem : Option Nat) (newsize : Nat) (got : Option Nat) : Option Nat :=
  if newsize = 0 ∨ got.isSome then rmem else none

/-- What a successful `rt_realloc` of the live pointer `p` to `newsize` bytes leaves: the contents in
the block at `q`, every other block, and the old block unless it is that of `q` as free space. -/
structure Resized (h : Heap) (bs : List Blk) (p newsize : Nat) (h' : Heap) (q : Nat) : Prop where
  effect : Effect h bs (some p) (some q) h'
  others : ∀ x, LivePtr h bs x → x ≠ p → SameBlock h h' x
  content : ∀ k, p + k < h.heap_ptr + h.next (p - SIZEOF_STRUCT_MEM) → k < newsize →
    h'.bytes (q + k) = h.bytes (p + k)
  room : q + newsize ≤ h'.heap_ptr + h'.next (q - SIZEOF_STRUCT_MEM)
  released : q = p ∨ ∃ bs', Holds h' bs' ∧
    InFree 0 bs' (p - SIZEOF_STRUCT_MEM - h.heap_ptr) (h.next (p - SIZEOF_STRUCT_MEM))

/-- The last steps of `rt_realloc`: the contents move to the new block `q`. -/
theorem move_spec {g : Heap} {p q n size newsize : Nat} (ha : Allocated h bs size g q)
    (hp : LivePtr h bs p) (hsize : newsize ≤ size) (hn : n ≤ size)
    (hcopied : ∀ k, p + k < h.heap_ptr + h.next (p - SIZEOF_STRUCT_MEM) → k < newsize → k < n)
    (hh : Holds h bs) :
    ∃ h', rt_free (rt_memcpy g q p n) (some p) = some h' ∧ Resized h bs p newsize h' q := by
  have hcopy : Allocated h bs size (rt_memcpy g q p n) q :=
    ha.userWrite fun lo hi hor => Bytes.copy_agreeOn (by omega)
  have hbytes : ∀ k, k < n → (rt_memcpy g q p n).bytes (q + k) = g.bytes (p + k) := by
    intro k hk
    simp [rt_memcpy, Bytes.copy, hk]
  have hold : SameBlock h g p := ha.keeps.sameBlock hh.toShape hp
  generalize rt_memcpy g q p n = m at *
  have hnew := hcopy.effect
  have hkeep : ∀ x, LivePtr h bs x → SameBlock h m x := fun x => hcopy.keeps.sameBlock hh.toShape
  obtain ⟨hs, -, pre, c, post, b, tail, rfl, hc, hm, ht, rfl⟩ := hcopy
  have hroom := ht.room
  have hlive : ∀ x, LivePtr m (pre ++ b :: tail) x ↔
      LivePtr h (pre ++ c :: post) x ∨ x = h.heap_ptr + total pre + 16 := by
    intro x
    unfold LivePtr
    rw [hs.heap_ptr]
    constructor
    · rintro ⟨o, ho, rfl⟩
      rcases (ht.mem_usedStarts pre hc o).mp ho with ho | rfl
      · exact Or.inl ⟨o, ho, rfl⟩
      · exact Or.inr rfl
    · rintro (⟨o, ho, rfl⟩ | rfl)
      · exact ⟨o, (ht.mem_usedStarts pre hc o).mpr (Or.inl ho), rfl⟩
      · exact ⟨total pre, (ht.mem_usedStarts pre hc _).mpr (Or.inr rfl), rfl⟩
  have hne : h.heap_ptr + total pre + 16 ≠ p := by
    rintro rfl
    exact absurd (hnew.fresh _ rfl hp) (by simp)
  have hnext : m.next (m.heap_ptr + total pre) = total pre + b.size := hm.toShape.header.next
  -- the old block is released
  obtain ⟨pre2, b2, post2, heq, hb2, hat, hnext2⟩ := ((hlive p).mpr (Or.inl hp)).block hm.toShape
  have hm2 := hm
  rw [heq] at hm2
  obtain ⟨h', bs', hrun, hf⟩ := rt_free_spec hm2 hb2
  rw [← hat] at hrun
  have hkept : ∀ x, LivePtr m (pre ++ b :: tail) x → x ≠ p → SameBlock m h' x := by
    intro x hx hxp
    rw [heq] at hx
    exact hf.keeps.others hm2.toShape hx (hat ▸ hxp)
  have hq := hkept (h.heap_ptr + total pre + 16) ((hlive _).mpr (Or.inr rfl)) hne
  have hptr : h'.heap_ptr = h.heap_ptr := hf.same.heap_ptr.trans hs.heap_ptr
  have hend : h'.next (h.heap_ptr + total pre + 16 - SIZEOF_STRUCT_MEM) = total pre + b.size := by
    rw [hq.next, SIZEOF_STRUCT_MEM_eq, Nat.add_sub_cancel, ← hs.heap_ptr, hnext]
  refine ⟨h', hrun, ⟨hs.trans hf.same, ?_, ?_⟩, fun x hx hxp => ?_, fun k hk hlt => ?_, ?_, Or.inr ?_⟩
  · have heff := hf.effect
    rw [← heq, ← hat] at heff
    obtain ⟨bs'', hh', hiff⟩ := heff.blocks
    refine ⟨bs'', hh', fun x => ?_⟩
    rw [hiff, hlive]
    simp only [Option.some.injEq, ne_eq, reduceCtorEq, or_false]
    constructor
    · rintro ⟨hx | hx, hxp⟩
      · exact Or.inl ⟨hx, hxp⟩
      · exact Or.inr hx
    · rintro (⟨hx, hxp⟩ | rfl)
      · exact ⟨Or.inl hx, hxp⟩
      · exact ⟨Or.inr rfl, hne⟩
  · intro x hx hxl
    exact absurd (hnew.fresh x hx hxl) (by simp)
  · exact (hkeep x hx).trans (hkept x ((hlive x).mpr (Or.inl hx)) hxp) hs.heap_ptr
  · rw [hq.bytes _ (by omega), hbytes k (hcopied k hk hlt), hold.bytes _ (by omega) hk]
    rw [SIZEOF_STRUCT_MEM_eq, Nat.add_sub_cancel, ← hs.heap_ptr, hnext, hs.heap_ptr]
    omega
  · rw [hend, hptr]
    omega
  · refine ⟨bs', hf.holds, ?_⟩
    rw [← (hkeep p hp).next, hnext2, show p - SIZEOF_STRUCT_MEM - h.heap_ptr = total pre2 by
      rw [SIZEOF_STRUCT_MEM_eq, hat, hs.heap_ptr]; omega]
    exact hf.covers

/-- What `rt_realloc` of the live pointer `p` may give. -/
inductive ReallocPost (h : Heap) (bs : List Blk) (p newsize : Nat) : Heap × Option Nat → Prop
  | refused (hz : newsize ≠ 0) : ReallocPost h bs p newsize (h, none)
  | freed {h' : Heap} (hz : newsize = 0) (he : Effect h bs (some p) none h') :
    ReallocPost h bs p newsize (h', none)
  | resized {h' : Heap} {q : Nat} (hz : newsize ≠ 0) (hr : Resized h bs p newsize h' q) :
    ReallocPost h bs p newsize (h', some q)

theorem ReallocPost.effect {p newsize : Nat} {r : Heap × Option Nat} (hh : Holds h bs)
    (hp : ReallocPost h bs p newsize r) : Effect h bs (reallocDead (some p) newsize r.2) r.2 r.1 := by
  cases hp with
  | refused hz => simpa [reallocDead, hz] using Effect.nothing hh
  | freed hz he => simpa [reallocDead, hz] using he
  | resized hz hr => simpa [reallocDead] using hr.effect

/-- A block of the right size stays as it is. -/
theorem Resized.keep {pre post : List Blk} {b : Blk} {newsize : Nat}
    (hh : Holds h (pre ++ b :: post)) (hb : b.used = true) (hle : newsize + 16 ≤ b.size) :
    Resized h (pre ++ b :: post) (h.heap_ptr + total pre + 16) newsize h
      (h.heap_ptr + total pre + 16) where
  effect := Effect.keep hh (SameArena.refl h) rfl
    ⟨total pre, mem_usedStarts.mpr ⟨b, mem_placed.mpr ⟨pre, post, rfl, by omega⟩, hb⟩, rfl⟩
  others x _ _ := SameBlock.refl h x
  content _ _ _ := rfl
  room := by
    have hnext : h.next (h.heap_ptr + total pre) = total pre + b.size := hh.toShape.header.next
    rw [SIZEOF_STRUCT_MEM_eq, Nat.add_sub_cancel, hnext]
    omega
  released := Or.inl rfl

theorem Shrunk.resized {pre post : List Blk} {b : Blk} {size newsize : Nat} {h' : Heap}
    (hh : Holds h (pre ++ b :: post)) (hb : b.used = true) (hs : Shrunk h pre b post size h')
    (hle : newsize ≤ size) :
    Resized h (pre ++ b :: post) (h.heap_ptr + total pre + 16) newsize h'
      (h.heap_ptr + total pre + 16) where
  effect := by
    obtain ⟨bs', hh', hst⟩ := hs.blocks
    exact Effect.keep hh' hs.same hst
      ⟨total pre, mem_usedStarts.mpr ⟨b, mem_placed.mpr ⟨pre, post, rfl, by omega⟩, hb⟩, rfl⟩
  others x hx hxp := hs.keeps.others hh.toShape hx hxp
  content k _ hk := hs.content _ (by omega) (by omega)
  room := by
    rw [SIZEOF_STRUCT_MEM_eq, Nat.add_sub_cancel, hs.next, hs.same.heap_ptr]
    omega
  released := Or.inl rfl

/-- `rt_realloc` of a live pointer. -/
theorem rt_realloc_spec {p newsize : Nat} (hh : Holds h bs) (hsize : newsize ≤ 2 ^ 32 - 8)
    (h8 : h.mem_size_aligned ≠ 8) (hp : LivePtr h bs p) :
    Returns (fun fuel => rt_realloc fuel h (some p) newsize) (h.mem_size_aligned + 16)
      (ReallocPost h bs p newsize) := by
  have hal := RT_ALIGN_eight hsize
  have hdvd := RT_ALIGN_eight_dvd newsize
  have hfits := hh.fits
  unfold rt_realloc
  dsimp only
  rw [RT_ALIGN_SIZE_eq]
  by_cases hbig : h.mem_size_aligned < RT_ALIGN newsize 8
  · simp only [if_pos hbig]
    exact Returns.const (.refused (by omega))
  simp only [if_neg hbig]
  by_cases hzero : RT_ALIGN newsize 8 = 0
  · -- a size of 0 frees the block
    obtain ⟨h', hrun, he⟩ := rt_free_effect hh hp
    simp only [if_pos hzero, hrun]
    exact Returns.const (.freed (by omega) he)
  simp only [if_neg hzero]
  have hz : newsize ≠ 0 := by omega
  obtain ⟨o, ho, hpo⟩ := id hp
  obtain ⟨pre, b, post, rfl, rfl, hb⟩ := usedStarts_split ho
  have hsum := hh.sum
  have hend := hh.end_eq
  have hbroom := hh.used_room b (by simp) hb
  have hmem : p - 16 = h.heap_ptr + total pre := by omega
  have hoff : h.heap_ptr + total pre - h.heap_ptr = total pre := by omega
  have hnext : h.next (h.heap_ptr + total pre) = total pre + b.size := hh.header.next
  have hblk : sub32 (sub32 (total pre + b.size) (total pre)) 16 = b.size - 16 := by
    have h1 : sub32 (total pre + b.size) (total pre) = b.size := by
      rw [sub32_of_le (by omega) (by omega), Nat.add_sub_cancel_left]
    rw [h1, sub32_of_le (by omega) (by omega)]
  simp only [SIZEOF_STRUCT_MEM_eq, MIN_SIZE_eq, hmem, hoff, hnext, hblk]
  rw [add32_of_lt (show RT_ALIGN newsize 8 + 16 < 2 ^ 32 by omega),
    add32_of_lt (show RT_ALIGN newsize 8 + 16 + 12 < 2 ^ 32 by omega)]
  simp only [if_neg (show ¬(p < h.heap_ptr ∨ h.heap_end ≤ p) by omega)]
  by_cases hsame : b.size - 16 = RT_ALIGN newsize 8
  · simp only [if_pos hsame]
    refine Returns.const (.resized hz ?_)
    rw [hpo]
    exact Resized.keep hh hb (by omega)
  simp only [if_neg hsame]
  by_cases hshrink : RT_ALIGN newsize 8 + 16 + 12 < b.size - 16
  · simp only [if_pos hshrink]
    obtain ⟨h', hrun, hs⟩ := shrink_spec hh hb hdvd (by omega) (by omega)
    simp only [hrun]
    refine Returns.const (.resized hz ?_)
    rw [hpo]
    exact hs.resized hh hb (by omega)
  · simp only [if_neg hshrink]
    have hmalloc := rt_malloc_returns hh (show RT_ALIGN newsize 8 ≤ 2 ^ 32 - 8 by omega) h8
    refine hmalloc.bind fun r hr => ?_
    rcases hr with ⟨rfl, -⟩ | ⟨o', -, hq, ha⟩
    · exact Returns.const (.refused hz)
    · obtain ⟨g, got⟩ := r
      subst hq
      have hreq := le_request (show RT_ALIGN newsize 8 ≤ 2 ^ 32 - 8 by omega)
      have hold : p + (b.size - 16) = h.heap_ptr + h.next (p - SIZEOF_STRUCT_MEM) := by
        rw [SIZEOF_STRUCT_MEM_eq, hmem, hnext]
        omega
      have hmove : ∃ h', rt_free (rt_memcpy g (h.heap_ptr + o' + 16) p
          (if b.size - 16 < RT_ALIGN newsize 8 then b.size - 16 else RT_ALIGN newsize 8))
            (some p) = some h' ∧
          Resized h (pre ++ b :: post) p newsize h' (h.heap_ptr + o' + 16) :=
        move_spec ha hp (by omega) (by split <;> omega) (fun k hk hlt => by split <;> omega) hh
      obtain ⟨h', hrun, hr⟩ := hmove
      simp only [hrun]
      exact Returns.const (.resized hz hr)

theorem rt_realloc_returns {rmem : Option Nat} {newsize : Nat} (hh : Holds h bs)
    (hsize : newsize ≤ 2 ^ 32 - 8) (h8 : h.mem_size_aligned ≠ 8)
    (hlive : ∀ p, rmem = some p → LivePtr h bs p) :
    Returns (fun fuel => rt_realloc fuel h rmem newsize) (h.mem_size_aligned + 16)
      fun r => Effect h bs (reallocDead rmem newsize r.2) r.2 r.1 := by
  cases rmem with
  | some p => exact (rt_realloc_spec hh hsize h8 (hlive p rfl)).weaken fun r hr => hr.effect hh
  | none =>
    have hal := RT_ALIGN_eight hsize
    unfold rt_realloc
    dsimp only
    rw [RT_ALIGN_SIZE_eq]
    by_cases hbig : h.mem_size_aligned < RT_ALIGN newsize 8
    · simp only [if_pos hbig]
      exact Returns.const (by simpa [reallocDead] using Effect.nothing hh)
    simp only [if_neg hbig]
    by_cases hzero : RT_ALIGN newsize 8 = 0
    · simp only [if_pos hzero]
      exact Returns.const (by simpa [reallocDead] using Effect.nothing hh)
    simp only [if_neg hzero]
    have hmalloc := rt_malloc_returns hh (show RT_ALIGN newsize 8 ≤ 2 ^ 32 - 8 by omega) h8
    refine hmalloc.weaken fun r hr => ?_
    rcases hr with ⟨rfl, -⟩ | ⟨o, -, hp, ha⟩
    · simpa [reallocDead] using Effect.nothing hh
    · rw [hp]
      simpa [reallocDead] using ha.effect

end Realloc

end Ab32Vg1.Kernel.Mem
