import Ab32Vg1.Kernel.MemheapShape
import Ab32Vg1.ProofKit.Fuel

/-! What the functions of a memory heap do to the tiling of its pool and to its free list. -/

namespace Ab32Vg1.Kernel.Memheap

open ProofKit ProofKit.Tiling

/-- The addresses of the blocks of a run with a given use flag. -/
def MarkedAt (u : Bool) (o : Nat) (bs : List Blk) (x : Nat) : Prop :=
  ∃ b, (x, b) ∈ placed o bs ∧ b.used = u

/-- The payloads of the free blocks of a run. -/
def freeRoom (bs : List Blk) : Nat := (bs.map fun b => if b.used then 0 else b.size - 24).sum

section Runs

variable {u : Bool} {o x : Nat} {bs pre post : List Blk} {b : Blk}

theorem markedAt_cons : MarkedAt u o (b :: bs) x ↔
    (x = o ∧ b.used = u) ∨ MarkedAt u (o + b.size) bs x := by
  simp only [MarkedAt, placed, List.mem_cons, Prod.mk.injEq, or_and_right, exists_or, and_assoc]
  refine or_congr ⟨?_, fun h => ⟨b, h.1, rfl, h.2⟩⟩ Iff.rfl
  rintro ⟨c, hx, rfl, hc⟩
  exact ⟨hx, hc⟩

theorem markedAt_cut : MarkedAt u o (pre ++ b :: post) x ↔ MarkedAt u o pre x ∨
    (x = o + total pre ∧ b.used = u) ∨ MarkedAt u (o + total pre + b.size) post x := by
  rw [← markedAt_cons]
  simp only [MarkedAt, placed_append, List.mem_append, or_and_right, exists_or]

theorem MarkedAt.le (h : MarkedAt u o bs x) : o ≤ x ∧ x + 24 ≤ o + total bs := by
  obtain ⟨b, hb, -⟩ := h
  have := placed_le hb
  have := b.room_le
  omega

theorem MarkedAt.mem_starts (h : MarkedAt u o bs x) : x ∈ starts o bs := by
  obtain ⟨b, hb, -⟩ := h
  exact List.mem_map_of_mem hb

@[simp] theorem freeRoom_nil : freeRoom [] = 0 := rfl

@[simp] theorem freeRoom_cons (b : Blk) (bs : List Blk) :
    freeRoom (b :: bs) = (if b.used then 0 else b.size - 24) + freeRoom bs := by simp [freeRoom]

@[simp] theorem freeRoom_append (xs ys : List Blk) :
    freeRoom (xs ++ ys) = freeRoom xs + freeRoom ys := by simp [freeRoom]

theorem freeRoom_le (bs : List Blk) : freeRoom bs ≤ total bs := by
  induction bs with
  | nil => simp
  | cons b bs ih =>
    rw [freeRoom_cons, total_cons]
    split <;> omega

end Runs

/-- The state of a memory heap between calls. -/
structure Holds (h : MemHeap) (bs : List Blk) (fl : List Nat) : Prop extends Shape h bs fl where
  pool_eq : h.pool_size = total bs + 24
  listed : ∀ x, x ∈ fl ↔ MarkedAt false h.start_addr bs x
  available_eq : h.available_size = freeRoom bs
  coalesced : Coalesced bs
  used_room : ∀ b ∈ bs, b.used = true → 36 ≤ b.size

section Search

variable {h : MemHeap} {bs pre post : List Blk} {b : Blk} {fl : List Nat}

/-- The search of a list returns its first item with room, or no room. -/
theorem search_returns {l : List Nat} {a size free_size : Nat}
    (hc : Chained (h.get .next_free) (h.get .prev_free) a l h.free_list) (hl : h.free_list ∉ l)
    (hlt : free_size < size) :
    Returns (fun k => search h size k (h.get .next_free a) free_size) (l.length + 1) fun r =>
      (r.2 < size ∧ ∀ y ∈ l, MEMITEM_SIZE h y < size) ∨
      ∃ l1 x l2, l = l1 ++ x :: l2 ∧ (∀ y ∈ l1, MEMITEM_SIZE h y < size) ∧
        size ≤ MEMITEM_SIZE h x ∧ r = (x, MEMITEM_SIZE h x) := by
  induction l generalizing a free_size with
  | nil =>
    rw [hc.1]
    refine Returns.stop (a := (h.free_list, free_size)) rfl (fun k => ?_) (Or.inl ⟨hlt, by simp⟩)
    rw [search, if_neg (by simp)]
  | cons x xs ih =>
    obtain ⟨hx, -, hxs⟩ := hc
    have hne : x ≠ h.free_list := fun heq => hl (by simp [heq])
    rw [hx]
    refine Returns.step rfl (fun k => by rw [search, if_pos ⟨hne, hlt⟩]) ?_
    dsimp only
    by_cases hroom : MEMITEM_SIZE h x < size
    · simp only [if_pos hroom]
      refine (ih hxs (fun hm => hl (List.mem_cons_of_mem x hm)) hroom).weaken fun r hr => ?_
      rcases hr with ⟨hr, hall⟩ | ⟨l1, y, l2, rfl, hall, hy, rfl⟩
      · exact Or.inl ⟨hr, by simpa [hroom] using hall⟩
      · exact Or.inr ⟨x :: l1, y, l2, rfl, by simpa [hroom] using hall, hy, rfl⟩
    · simp only [if_neg hroom]
      refine Returns.stop (a := (x, MEMITEM_SIZE h x)) rfl (fun k => ?_)
        (Or.inr ⟨[], x, xs, rfl, by simp, by omega, rfl⟩)
      rw [search, if_neg (fun hc => hroom hc.2)]

/-- The items of the free list are those of the free blocks. -/
theorem Holds.listed_cut (hh : Holds h (pre ++ b :: post) fl) (x : Nat) :
    x ∈ fl ↔ MarkedAt false h.start_addr pre x ∨ (x = h.start_addr + total pre ∧ b.used = false) ∨
      MarkedAt false (h.start_addr + total pre + b.size) post x := by
  rw [hh.listed, markedAt_cut]

theorem Holds.of_mem {x : Nat} (hh : Holds h bs fl) (hx : x ∈ fl) :
    ∃ pre b post, bs = pre ++ b :: post ∧ x = h.start_addr + total pre ∧ b.used = false ∧
      MEMITEM_SIZE h x = b.size - 24 := by
  obtain ⟨b, hb, hbu⟩ := (hh.listed x).mp hx
  obtain ⟨pre, post, rfl, rfl⟩ := mem_placed.mp hb
  exact ⟨pre, b, post, rfl, rfl, hbu, hh.memitem_size⟩

end Search

/-! ### Allocation -/

/-- The block `c` takes `size` bytes of the free block `b`, or all of it when the rest is too small for
a block; `tail` is what follows `c`. -/
inductive Cut (b : Blk) (post : List Blk) (size : Nat) : (c : Blk) → (tail : List Blk) → Prop where
  | part {c d : Blk} (hc : c.used = true) (hd : d.used = false) (hcs : c.size = size + 24)
      (hsize : b.size = c.size + d.size) (hroom : 36 ≤ d.size) : Cut b post size c (d :: post)
  | whole (hfit : size + 24 ≤ b.size) (hrest : b.size < size + 60) : Cut b post size (b.mark true) post

section Alloc

variable {h h' : MemHeap} {bs pre post : List Blk} {b c d : Blk} {fl f1 f2 : List Nat} {size : Nat}

/-- The counters of a heap play no part in its shape. -/
theorem Shape.account (hs : Shape h bs fl) (n : Nat) :
    Shape { h with available_size := n } bs fl := hs.congr rfl ⟨rfl, rfl, rfl, rfl⟩

theorem Shape.recordUse (hs : Shape h bs fl) : Shape (recordUse h) bs fl :=
  hs.congr rfl ⟨rfl, rfl, rfl, rfl⟩

@[simp] theorem takePart_pool_size (h : MemHeap) (x n : Nat) :
    (takePart h x n).pool_size = h.pool_size := rfl

@[simp] theorem takePart_start_addr (h : MemHeap) (x n : Nat) :
    (takePart h x n).start_addr = h.start_addr := rfl

@[simp] theorem takePart_available_size (h : MemHeap) (x n : Nat) :
    (takePart h x n).available_size = sub32 (sub32 h.available_size n) RT_MEMHEAP_SIZE := rfl

/-- Two blocks made of a free one, the first in use. -/
theorem Coalesced.cut_free (hco : Coalesced (pre ++ b :: post)) (hb : b.used = false)
    (hc : c.used = true) : Coalesced (pre ++ c :: d :: post) :=
  hco.left.insert_used (hco.right.tail.cons_free (hco.right.head_used hb)) hc

theorem takePart_holds (hh : Holds h (pre ++ b :: post) (f1 ++ (h.start_addr + total pre) :: f2))
    (hb : b.used = false) (hc : c.used = true) (hd : d.used = false) (hcs : c.size = size + 24)
    (hsize : b.size = c.size + d.size) (hroom : 36 ≤ c.size) :
    Holds ((takePart h (h.start_addr + total pre) size).set .magic (h.start_addr + total pre)
        (magicWord true)) (pre ++ c :: d :: post)
      ((h.start_addr + total pre + c.size) :: (f1 ++ f2)) := by
  have hdr := d.room_le
  have hnd := List.nodup_cons.mp (List.nodup_middle.mp hh.fl_nodup)
  have hlisted := hh.listed_cut
  have hpre : ∀ z, MarkedAt false h.start_addr pre z → _ := fun z hz => hz.le
  have hpost : ∀ z, MarkedAt false (h.start_addr + total pre + b.size) post z → _ := fun z hz => hz.le
  have hnew : h.start_addr + total pre + c.size ∉ f1 ++ f2 := by
    intro hmem
    have hold := (hlisted (h.start_addr + total pre + c.size)).mp (by simp at hmem ⊢; tauto)
    rcases hold with hz | ⟨hz, -⟩ | hz
    · have := hpre _ hz
      omega
    · omega
    · have := hpost _ hz
      omega
  have hcut := (hh.toShape.splitBlock (c := c.mark false) hsize hb.symm hd)
  have htaken := hcut.takeFree
  have hin : h.start_addr + total pre + c.size ∈
      starts h.start_addr (pre ++ c.mark false :: d :: post) :=
    mem_starts_second h.start_addr pre post (c.mark false) d
  have hins := htaken.insertFree hin hnew
  have hshape : Shape (takePart h (h.start_addr + total pre) size) (pre ++ c.mark false :: d :: post)
      ((h.start_addr + total pre + c.size) :: (f1 ++ f2)) := by
    rw [takePart, RT_MEMHEAP_SIZE_eq, Nat.add_assoc _ size, ← hcs]
    exact (hins.account _).recordUse
  have hmark : (c.mark false).mark true = c := by
    ext
    · rfl
    · exact hc.symm
  have hused := hshape.setMagic true
  rw [hmark] at hused
  have hfree := hh.available_eq
  have hle := freeRoom_le (pre ++ b :: post)
  have hfits := hh.fits
  refine ⟨hused, ?_, fun z => ?_, ?_, Coalesced.cut_free hh.coalesced hb hc, ?_⟩
  · rw [MemHeap.set_pool_size, takePart_pool_size, hh.pool_eq]
    simp only [total_append, total_cons]
    omega
  · have hz := hlisted z
    have h1 := hpre z
    have h2 := hpost z
    have hA := hnd.1
    rw [MemHeap.set_start_addr, takePart_start_addr, markedAt_cut, markedAt_cons, Nat.add_assoc _ c.size, ← hsize]
    simp only [List.mem_append, List.mem_cons, hb, hc, hd] at hz hA ⊢
    grind
  · rw [MemHeap.set_available_size, takePart_available_size, RT_MEMHEAP_SIZE_eq]
    simp only [freeRoom_append, freeRoom_cons, hb, hc, hd, Bool.false_eq_true, if_false,
      if_true] at hfree hle ⊢
    have hsub : sub32 h.available_size size = h.available_size - size :=
      sub32_of_le (by omega) (by omega)
    rw [hsub, sub32_of_le (by omega) (by omega)]
    omega
  · have hr := hh.used_room
    simp only [List.forall_mem_append, List.forall_mem_cons] at hr ⊢
    exact ⟨hr.1, fun _ => hroom, by simp [hd], hr.2.2⟩

@[simp] theorem takeWhole_pool_size (h : MemHeap) (x n : Nat) :
    (takeWhole h x n).pool_size = h.pool_size := rfl

@[simp] theorem takeWhole_start_addr (h : MemHeap) (x n : Nat) :
    (takeWhole h x n).start_addr = h.start_addr := rfl

@[simp] theorem takeWhole_available_size (h : MemHeap) (x n : Nat) :
    (takeWhole h x n).available_size = sub32 h.available_size n := rfl

theorem takeWhole_holds (hh : Holds h (pre ++ b :: post) (f1 ++ (h.start_addr + total pre) :: f2))
    (hb : b.used = false) (hroom : 36 ≤ b.size) :
    Holds ((takeWhole h (h.start_addr + total pre) (b.size - 24)).set .magic
        (h.start_addr + total pre) (magicWord true)) (pre ++ b.mark true :: post) (f1 ++ f2) := by
  have hnd := List.nodup_cons.mp (List.nodup_middle.mp hh.fl_nodup)
  have hlisted := hh.listed_cut
  have htaken := ((hh.toShape.account (sub32 h.available_size (b.size - 24))).recordUse).takeFree
  have hused : Shape _ (pre ++ b.mark true :: post) (f1 ++ f2) := htaken.setMagic true
  have hfree := hh.available_eq
  have hle := freeRoom_le (pre ++ b :: post)
  have hfits := hh.fits
  refine ⟨hused, ?_, fun z => ?_, ?_, hh.coalesced.left.insert_used hh.coalesced.right.tail rfl, ?_⟩
  · rw [MemHeap.set_pool_size, takeWhole_pool_size, hh.pool_eq]
    simp
  · have hz := hlisted z
    have h1 : MarkedAt false h.start_addr pre z → _ := fun hz => hz.le
    have h2 : MarkedAt false (h.start_addr + total pre + b.size) post z → _ := fun hz => hz.le
    have hA := hnd.1
    rw [MemHeap.set_start_addr, takeWhole_start_addr, markedAt_cut]
    simp only [List.mem_append, List.mem_cons, hb, Block.mark_used, Block.mark_size] at hz hA ⊢
    grind
  · rw [MemHeap.set_available_size, takeWhole_available_size]
    simp only [freeRoom_append, freeRoom_cons, hb, Block.mark_used, Bool.false_eq_true, if_false,
      if_true] at hfree hle ⊢
    rw [sub32_of_le (by omega) (by omega)]
    omega
  · have hr := hh.used_room
    simp only [List.forall_mem_append, List.forall_mem_cons] at hr ⊢
    exact ⟨hr.1, fun _ => hroom, hr.2.2⟩

/-- The first free block with room for `size` bytes is given out at `p`. -/
structure Allocated (h : MemHeap) (bs : List Blk) (fl : List Nat) (size : Nat) (h' : MemHeap)
    (p : Nat) : Prop where
  same : SamePool h h'
  blocks : ∃ pre b post c tail f1 f2 fl', bs = pre ++ b :: post ∧ b.used = false ∧
    fl = f1 ++ (h.start_addr + total pre) :: f2 ∧ (∀ y ∈ f1, MEMITEM_SIZE h y < size) ∧
    p = h.start_addr + total pre + 24 ∧ Cut b post size c tail ∧ Holds h' (pre ++ c :: tail) fl'

theorem alignedSize_eq (size : Nat) :
    alignedSize size = if RT_ALIGN size 8 < 12 then 12 else RT_ALIGN size 8 := rfl

theorem alignedSize_bounds (size : Nat) :
    12 ≤ alignedSize size ∧ 4 ∣ alignedSize size ∧ alignedSize size < 2 ^ 32 ∧
      (alignedSize size = 12 ∨ 8 ∣ alignedSize size) := by
  have hdvd := RT_ALIGN_eight_dvd size
  have hlt := @RT_ALIGN_eight_lt size
  rw [alignedSize_eq]
  split <;> omega

theorem rt_memheap_alloc_spec (hh : Holds h bs fl) (size : Nat) :
    Returns (fun k => rt_memheap_alloc k h size) (fl.length + 1) fun r =>
      (r = (h, none) ∧
        (h.available_size ≤ alignedSize size ∨ ∀ y ∈ fl, MEMITEM_SIZE h y < alignedSize size)) ∨
      ∃ p, r.2 = some p ∧ Allocated h bs fl (alignedSize size) r.1 p := by
  obtain ⟨hmin, hdvd, -, -⟩ := alignedSize_bounds size
  unfold rt_memheap_alloc
  generalize alignedSize size = n at *
  dsimp only
  by_cases havail : n < h.available_size
  · simp only [if_pos havail]
    refine Returns.bind (search_returns hh.free hh.header_not_mem (by omega)) ?_
    rintro ⟨x, free_size⟩ hx
    dsimp only
    rcases hx with ⟨hlt, hall⟩ | ⟨l1, y, l2, rfl, hall, hy, heq⟩
    · rw [if_neg (Nat.not_le.mpr hlt)]
      exact Returns.const (Or.inl ⟨rfl, Or.inr hall⟩)
    · obtain ⟨pre, b, post, rfl, rfl, hb, hsize⟩ := hh.of_mem (x := y) (by simp)
      rw [hsize] at hy heq
      obtain ⟨hxy, hfree⟩ := Prod.mk.inj heq
      rw [hxy, hfree, if_pos hy]
      have hfits := hh.fits
      simp only [total_append, total_cons] at hfits
      refine Returns.const (Or.inr ⟨_, rfl, ?_⟩)
      dsimp only
      have hsum : add32 n RT_MEMHEAP_SIZE = n + 24 := by
        rw [RT_MEMHEAP_SIZE_eq, add32_of_lt (by omega)]
      rw [hsum, RT_MEMHEAP_MINIALLOC_eq, add32_of_lt (by omega), RT_MEMHEAP_SIZE_eq]
      by_cases hpart : n + 24 + 12 ≤ b.size - 24
      · rw [if_pos hpart]
        have hbd := b.align_dvd
        have hpart' := takePart_holds (c := ⟨n + 24, true, by omega, by omega⟩)
          (d := ⟨b.size - (n + 24), false, by omega, by omega⟩) hh hb rfl rfl rfl
          (by dsimp only; omega) (by dsimp only; omega)
        exact ⟨⟨rfl, rfl, rfl, rfl⟩, pre, b, post, _, _, l1, l2, _, rfl, hb, rfl, hall, rfl,
          Cut.part rfl rfl rfl (by dsimp only; omega) (by dsimp only; omega), hpart'⟩
      · rw [if_neg hpart]
        exact ⟨⟨rfl, rfl, rfl, rfl⟩, pre, b, post, _, _, l1, l2, _, rfl, hb, rfl, hall, rfl,
          Cut.whole (by omega) (by omega), takeWhole_holds hh hb (by omega)⟩
  · simp only [if_neg havail]
    exact Returns.const (Or.inl ⟨rfl, Or.inl (by omega)⟩)

end Alloc

/-! ### A free item that is not listed yet -/

/-- The state of a heap in the middle of a call: all free items but `x` are listed. -/
structure Pending (h : MemHeap) (bs : List Blk) (fl : List Nat) (x : Option Nat) : Prop
    extends Shape h bs fl where
  pool_eq : h.pool_size = total bs + 24
  listed : ∀ z, z ∈ fl ↔ MarkedAt false h.start_addr bs z ∧ some z ≠ x
  used_room : ∀ b ∈ bs, b.used = true → 36 ≤ b.size

section Pending

variable {h h' : MemHeap} {bs pre post : List Blk} {a b c d : Blk} {fl f1 f2 : List Nat}
  {x : Option Nat}

theorem Holds.pending (hh : Holds h bs fl) : Pending h bs fl none :=
  ⟨hh.toShape, hh.pool_eq, fun z => by simp [hh.listed z], hh.used_room⟩

theorem Pending.holds (hp : Pending h bs fl none) (havail : h.available_size = freeRoom bs)
    (hco : Coalesced bs) : Holds h bs fl :=
  ⟨hp.toShape, hp.pool_eq, fun z => by simp [hp.listed z], havail, hco, hp.used_room⟩

theorem Pending.account (hp : Pending h bs fl x) (n : Nat) :
    Pending { h with available_size := n } bs fl x :=
  ⟨hp.toShape.account n, hp.pool_eq, hp.listed, hp.used_room⟩

theorem Pending.recordUse (hp : Pending h bs fl x) : Pending (recordUse h) bs fl x :=
  ⟨hp.toShape.recordUse, hp.pool_eq, hp.listed, hp.used_room⟩

theorem Pending.listed_cut (hp : Pending h (pre ++ b :: post) fl x) (z : Nat) :
    z ∈ fl ↔ (MarkedAt false h.start_addr pre z ∨ (z = h.start_addr + total pre ∧ b.used = false) ∨
      MarkedAt false (h.start_addr + total pre + b.size) post z) ∧ some z ≠ x := by
  rw [hp.listed, markedAt_cut]

/-- A block in use becomes free. -/
theorem Pending.release (hp : Pending h (pre ++ b :: post) fl none) (hb : b.used = true) :
    Pending (h.set .magic (h.start_addr + total pre) (magicWord false)) (pre ++ b.mark false :: post)
      fl (some (h.start_addr + total pre)) := by
  have hroom := b.room_le
  refine ⟨hp.toShape.setMagic false, ?_, fun z => ?_, ?_⟩
  · rw [MemHeap.set_pool_size, hp.pool_eq]
    simp
  · have hz := hp.listed_cut z
    have h1 : MarkedAt false h.start_addr pre z → _ := fun hz => hz.le
    have h2 : MarkedAt false (h.start_addr + total pre + b.size) post z → _ := fun hz => hz.le
    rw [MemHeap.set_start_addr, markedAt_cut]
    simp only [hb, Block.mark_used, Block.mark_size] at hz ⊢
    grind
  · have hr := hp.used_room
    simp only [List.forall_mem_append, List.forall_mem_cons] at hr ⊢
    exact ⟨hr.1, by simp, hr.2.2⟩

/-- The pending item is listed. -/
theorem Pending.insertFree {y : Nat} (hp : Pending h bs fl (some y))
    (hy : MarkedAt false h.start_addr bs y) : Pending (insertFree h y) bs (y :: fl) none := by
  have hyf : y ∉ fl := fun hm => ((hp.listed y).mp hm).2 rfl
  refine ⟨hp.toShape.insertFree hy.mem_starts hyf, hp.pool_eq, fun z => ?_, hp.used_room⟩
  have hz := hp.listed z
  rw [show (Memheap.insertFree h y).start_addr = h.start_addr from rfl, List.mem_cons]
  grind

/-- Cutting a block in use leaves a pending item. -/
theorem Pending.splitBlock (hp : Pending h (pre ++ b :: post) fl none) (hb : b.used = true)
    (hc : c.used = true) (hd : d.used = false) (hsize : b.size = c.size + d.size)
    (hroom : 36 ≤ c.size) :
    Pending (splitBlock h (h.start_addr + total pre) (h.start_addr + total pre + c.size))
      (pre ++ c :: d :: post) fl (some (h.start_addr + total pre + c.size)) := by
  have hdr := d.room_le
  refine ⟨hp.toShape.splitBlock hsize (hc.trans hb.symm) hd, ?_, fun z => ?_, ?_⟩
  · refine hp.pool_eq.trans ?_
    simp only [total_append, total_cons]
    omega
  · have hz := hp.listed_cut z
    have h1 : MarkedAt false h.start_addr pre z → _ := fun hz => hz.le
    have h2 : MarkedAt false (h.start_addr + total pre + b.size) post z → _ := fun hz => hz.le
    rw [show (Memheap.splitBlock h _ _).start_addr = h.start_addr from rfl, markedAt_cut,
      markedAt_cons, Nat.add_assoc _ c.size, ← hsize]
    simp only [hb, hc, hd] at hz ⊢
    grind
  · have hr := hp.used_room
    simp only [List.forall_mem_append, List.forall_mem_cons] at hr ⊢
    exact ⟨hr.1, fun _ => hroom, by simp [hd], hr.2.2⟩

/-- A free block absorbs the pending block behind it. -/
theorem Pending.mergePrev (hp : Pending h (pre ++ a :: b :: post) fl
      (some (h.start_addr + total pre + a.size))) (ha : a.used = false) (hb : b.used = false) :
    Pending (mergePrev h (h.start_addr + total pre + a.size)) (pre ++ a.join b :: post) fl none := by
  have har := a.room_le
  have hbr := b.room_le
  have hout : h.start_addr + total pre + a.size ∉ fl := fun hm => ((hp.listed _).mp hm).2 rfl
  refine ⟨hp.toShape.mergePrev rfl ha.symm hout, ?_, fun z => ?_, ?_⟩
  · refine hp.pool_eq.trans ?_
    simp only [total_append, total_cons, Block.join_size]
    omega
  · have hz := hp.listed_cut z
    have h1 : MarkedAt false h.start_addr pre z → _ := fun hz => hz.le
    have h2 : MarkedAt false (h.start_addr + total pre + a.size + b.size) post z → _ := fun hz => hz.le
    rw [show (Memheap.mergePrev h _).start_addr = h.start_addr from rfl, markedAt_cut,
      Block.join_size, ← Nat.add_assoc]
    rw [markedAt_cons] at hz
    simp only [ha, hb, Block.join_used] at hz ⊢
    grind
  · have hr := hp.used_room
    simp only [List.forall_mem_append, List.forall_mem_cons] at hr ⊢
    exact ⟨hr.1, by simp, hr.2.2.2⟩

/-- A free block absorbs the listed block behind it. -/
theorem Pending.mergeNext (hp : Pending h (pre ++ a :: b :: post)
      (f1 ++ (h.start_addr + total pre + a.size) :: f2) x) (ha : a.used = false)
    (hb : b.used = false) :
    Pending (mergeNext h (h.start_addr + total pre) (h.start_addr + total pre + a.size))
      (pre ++ a.join b :: post) (f1 ++ f2) x := by
  have har := a.room_le
  have hbr := b.room_le
  have hnd := (List.nodup_cons.mp (List.nodup_middle.mp hp.fl_nodup)).1
  refine ⟨hp.toShape.mergeNext rfl ha.symm, ?_, fun z => ?_, ?_⟩
  · refine hp.pool_eq.trans ?_
    simp only [total_append, total_cons, Block.join_size]
    omega
  · have hz := hp.listed_cut z
    have h1 : MarkedAt false h.start_addr pre z → _ := fun hz => hz.le
    have h2 : MarkedAt false (h.start_addr + total pre + a.size + b.size) post z → _ := fun hz => hz.le
    rw [show (Memheap.mergeNext h _ _).start_addr = h.start_addr from rfl, markedAt_cut,
      Block.join_size, ← Nat.add_assoc]
    rw [markedAt_cons] at hz
    simp only [List.mem_append, List.mem_cons, ha, hb, Block.join_used] at hz hnd ⊢
    grind
  · have hr := hp.used_room
    simp only [List.forall_mem_append, List.forall_mem_cons] at hr ⊢
    exact ⟨hr.1, by simp, hr.2.2.2⟩

end Pending

/-! ### Release -/

/-- Blocks were joined: those in use are where they were, and the grain of the sizes is kept. -/
structure Joined (o : Nat) (bs bs' : List Blk) : Prop where
  live : ∀ z, MarkedAt true o bs' z ↔ MarkedAt true o bs z
  grain : ∀ k, (∀ b ∈ bs, k ∣ b.size) → ∀ b ∈ bs', k ∣ b.size

section Free

variable {h h' : MemHeap} {bs pre post : List Blk} {a b c d : Blk} {fl f1 f2 : List Nat}
  {o : Nat} {x : Option Nat}

theorem Joined.refl (o : Nat) (bs : List Blk) : Joined o bs bs := ⟨fun _ => Iff.rfl, fun _ h => h⟩

theorem Joined.trans {bs1 bs2 bs3 : List Blk} (h1 : Joined o bs1 bs2) (h2 : Joined o bs2 bs3) :
    Joined o bs1 bs3 :=
  ⟨fun z => (h2.live z).trans (h1.live z), fun k h => h2.grain k (h1.grain k h)⟩

theorem joined_join (o : Nat) (pre post : List Blk) (ha : a.used = false) (hb : b.used = false) :
    Joined o (pre ++ a :: b :: post) (pre ++ a.join b :: post) where
  live z := by
    rw [markedAt_cut, markedAt_cut, markedAt_cons, Block.join_size, ← Nat.add_assoc]
    simp [ha, hb]
  grain k h := by
    simp only [List.forall_mem_append, List.forall_mem_cons, Block.join_size] at h ⊢
    exact ⟨h.1, Nat.dvd_add h.2.1 h.2.2.1, h.2.2.2⟩

/-- The item before a block is in use, or it is that of a free block. -/
theorem Shape.left_cases (hs : Shape h (pre ++ b :: post) fl) :
    (RT_MEMHEAP_IS_USED h (h.get .prev (h.start_addr + total pre)) ∧
      ∀ y ∈ pre.getLast?, y.used = true) ∨
    ∃ pre' a, pre = pre' ++ [a] ∧ a.used = false ∧
      h.get .prev (h.start_addr + total pre) = h.start_addr + total pre' ∧
      ¬RT_MEMHEAP_IS_USED h (h.start_addr + total pre') := by
  rcases List.eq_nil_or_concat pre with rfl | ⟨pre', a, rfl⟩
  · refine Or.inl ⟨?_, by simp⟩
    rw [total_nil, Nat.add_zero, Shape.prev_first hs]
    exact hs.tail_used
  · rw [List.concat_eq_append] at hs ⊢
    have hs' : Shape h (pre' ++ a :: b :: post) fl := by simpa using hs
    have hback := hs'.prev
    have hat : h.start_addr + total (pre' ++ [a]) = h.start_addr + total pre' + a.size := by
      simp [Nat.add_assoc]
    rw [hat, hback]
    cases ha : a.used with
    | true => exact Or.inl ⟨hs'.used_iff.mpr ha, by simp [ha]⟩
    | false => exact Or.inr ⟨pre', a, rfl, ha, rfl, fun hu => by simp [hs'.used_iff, ha] at hu⟩

/-- The item behind a block is in use, or it is that of a free block. -/
theorem Shape.right_cases (hs : Shape h (pre ++ b :: post) fl) :
    (RT_MEMHEAP_IS_USED h (h.get .next (h.start_addr + total pre)) ∧
      ∀ y ∈ post.head?, y.used = true) ∨
    ∃ d post', post = d :: post' ∧ d.used = false ∧
      h.get .next (h.start_addr + total pre) = h.start_addr + total pre + b.size ∧
      ¬RT_MEMHEAP_IS_USED h (h.start_addr + total pre + b.size) := by
  have hiff := hs.next_used_iff
  rw [hs.next]
  by_cases hu : RT_MEMHEAP_IS_USED h (h.start_addr + total pre + b.size)
  · exact Or.inl ⟨hu, hiff.mp hu⟩
  · cases post with
    | nil => exact absurd (hiff.mpr (by simp)) hu
    | cons d post' =>
      refine Or.inr ⟨d, post', rfl, ?_, rfl, hu⟩
      simpa [hu] using hiff

theorem Shape.next_magic (hs : Shape h (pre ++ b :: post) fl) :
    ∃ u, h.get .magic (h.get .next (h.start_addr + total pre)) = magicWord u := by
  rw [hs.next]
  cases post with
  | nil =>
    have htail := hs.tail_magic
    simp only [total_append, total_cons, total_nil, Nat.add_zero, ← Nat.add_assoc] at htail
    exact ⟨true, htail⟩
  | cons c post =>
    refine ⟨c.used, hs.magic _ c (mem_placed_cut.mpr (Or.inr (Or.inr ?_)))⟩
    exact List.mem_cons_self

/-- The end of `rt_memheap_free`: a free block absorbs a free block behind it. -/
theorem Pending.joinRight (hp : Pending h (pre ++ b :: post) fl x) (hb : b.used = false)
    (hx : ∀ y, x = some y → y = h.start_addr + total pre)
    (havail : h.available_size = freeRoom (pre ++ b :: post)) (hco : Coalesced post) :
    let right := h.get .next (h.start_addr + total pre)
    let g :=
      if ¬RT_MEMHEAP_IS_USED h right then
        Memheap.mergeNext { h with available_size := add32 h.available_size RT_MEMHEAP_SIZE }
          (h.start_addr + total pre) right
      else h
    SamePool h g ∧ ∃ c tail fl', Pending g (pre ++ c :: tail) fl' x ∧ c.used = false ∧
      g.available_size = freeRoom (pre ++ c :: tail) ∧ Coalesced tail ∧
      (∀ y ∈ tail.head?, y.used = true) ∧
      Joined h.start_addr (pre ++ b :: post) (pre ++ c :: tail) := by
  intro right g
  have hbr := b.room_le
  rcases hp.toShape.right_cases with ⟨hu, hhead⟩ | ⟨d, post', rfl, hd, hnext, hu⟩
  · have hg : g = h := if_neg (not_not.mpr hu)
    rw [hg]
    exact ⟨SamePool.refl h, b, post, fl, hp, hb, havail, hco, hhead, Joined.refl _ _⟩
  · have hright : right = h.start_addr + total pre + b.size := hnext
    have hg : g = Memheap.mergeNext
        { h with available_size := add32 h.available_size RT_MEMHEAP_SIZE }
        (h.start_addr + total pre) right := if_pos (hright ▸ hu)
    have hdr := d.room_le
    have hle := freeRoom_le (pre ++ b.join d :: post')
    have hfits := hp.fits
    have hmem : right ∈ fl := by
      refine (hp.listed right).mpr ⟨markedAt_cut.mpr (Or.inr (Or.inr ?_)), fun hxr => ?_⟩
      · exact markedAt_cons.mpr (Or.inl ⟨hright, hd⟩)
      · have := hx right hxr.symm
        omega
    obtain ⟨f1, f2, rfl⟩ := List.append_of_mem hmem
    have hmerged : Pending g (pre ++ b.join d :: post') (f1 ++ f2) x := by
      rw [hright] at hp hg
      rw [hg]
      exact (hp.account (add32 h.available_size RT_MEMHEAP_SIZE)).mergeNext hb hd
    refine ⟨hg ▸ ⟨rfl, rfl, rfl, rfl⟩, _, _, _, hmerged, rfl, ?_, hco.tail, hco.head_used hd,
      joined_join _ _ _ hb hd⟩
    rw [show g.available_size = add32 h.available_size RT_MEMHEAP_SIZE from hg ▸ rfl, havail,
      RT_MEMHEAP_SIZE_eq]
    simp only [freeRoom_append, freeRoom_cons, total_append, total_cons, Block.join_size,
      Block.join_used, hb, hd, Bool.false_eq_true, if_false] at hle hfits ⊢
    rw [add32_of_lt (by omega)]
    omega

/-- What `rt_memheap_free` does with a block that is marked free. -/
def coalesce (h : MemHeap) (header_ptr : Nat) : MemHeap :=
  let left := h.get .prev header_ptr
  let merged := ¬RT_MEMHEAP_IS_USED h left
  let h :=
    if merged then
      mergePrev { h with available_size := add32 h.available_size RT_MEMHEAP_SIZE } header_ptr
    else h
  let header_ptr := if merged then left else header_ptr
  let right := h.get .next header_ptr
  let h :=
    if ¬RT_MEMHEAP_IS_USED h right then
      mergeNext { h with available_size := add32 h.available_size RT_MEMHEAP_SIZE } header_ptr right
    else h
  if merged then h else insertFree h header_ptr

theorem rt_memheap_free_eq {x : Nat} (hmagic : h.get .magic x = magicWord true)
    (hbehind : h.get .magic (h.get .next x) &&& RT_MEMHEAP_MASK = RT_MEMHEAP_MAGIC)
    (hpool : h.get .pool_ptr x = h.self) :
    rt_memheap_free h (some (x + 24)) = some (coalesce { h.set .magic x (magicWord false) with
      available_size := add32 h.available_size
        (MEMITEM_SIZE (h.set .magic x (magicWord false)) x) } x) := by
  have hx : x + 24 - RT_MEMHEAP_SIZE = x := by rw [RT_MEMHEAP_SIZE_eq, Nat.add_sub_cancel]
  rw [rt_memheap_free]
  dsimp only
  rw [hx, RT_ASSERT_true hmagic, RT_ASSERT_true hbehind, RT_ASSERT_true hpool]
  rfl

/-- The block at `x` is free. -/
structure Freed (h : MemHeap) (bs : List Blk) (x : Nat) (h' : MemHeap) : Prop where
  same : SamePool h h'
  blocks : ∃ bs' fl', Holds h' bs' fl' ∧
    (∀ z, MarkedAt true h.start_addr bs' z ↔ MarkedAt true h.start_addr bs z ∧ z ≠ x) ∧
    ∀ k, (∀ b ∈ bs, k ∣ b.size) → ∀ b ∈ bs', k ∣ b.size

theorem Pending.coalesce (hp : Pending h (pre ++ b :: post) fl (some (h.start_addr + total pre)))
    (hb : b.used = false) (havail : h.available_size = freeRoom (pre ++ b :: post))
    (hpre : Coalesced pre) (hpost : Coalesced post) :
    SamePool h (coalesce h (h.start_addr + total pre)) ∧
      ∃ bs' fl', Holds (coalesce h (h.start_addr + total pre)) bs' fl' ∧
        Joined h.start_addr (pre ++ b :: post) bs' := by
  rcases hp.toShape.left_cases with ⟨hu, hlast⟩ | ⟨pre', a, rfl, ha, hleft, hu⟩
  · have hmerged : ¬¬RT_MEMHEAP_IS_USED h (h.get .prev (h.start_addr + total pre)) := not_not.mpr hu
    have hright := hp.joinRight hb (fun y hy => (Option.some.inj hy).symm) havail hpost
    simp only [Memheap.coalesce, if_neg hmerged]
    dsimp only at hright
    generalize (if ¬RT_MEMHEAP_IS_USED h (h.get .next (h.start_addr + total pre)) then _ else h) = g
      at hright ⊢
    obtain ⟨hsame, c, tail, fl', hc, hcu, hca, hco, hhead, hj⟩ := hright
    have hat : MarkedAt false g.start_addr (pre ++ c :: tail) (h.start_addr + total pre) := by
      rw [hsame.start_addr]
      exact markedAt_cut.mpr (Or.inr (Or.inl ⟨rfl, hcu⟩))
    exact ⟨⟨hsame.self, hsame.start_addr, hsame.pool_size, hsame.free_list⟩, _, _,
      (hc.insertFree hat).holds hca (hpre.insert_free hco hlast hhead), hj⟩
  · rw [List.append_assoc] at hp havail ⊢
    have hat : h.start_addr + total (pre' ++ [a]) = h.start_addr + total pre' + a.size := by
      simp [Nat.add_assoc]
    rw [hat] at hp hleft ⊢
    have hmerge := (hp.account (add32 h.available_size RT_MEMHEAP_SIZE)).mergePrev ha hb
    simp only [Memheap.coalesce, hleft, if_pos hu]
    generalize hg : Memheap.mergePrev { h with available_size := add32 h.available_size RT_MEMHEAP_SIZE }
      (h.start_addr + total pre' + a.size) = g at hmerge ⊢
    have hsame : SamePool h g := hg ▸ ⟨rfl, rfl, rfl, rfl⟩
    have har := a.room_le
    have hbr := b.room_le
    have hle := freeRoom_le (pre' ++ a.join b :: post)
    have hfits := hp.fits
    have hga : g.available_size = freeRoom (pre' ++ a.join b :: post) := by
      rw [show g.available_size = add32 h.available_size RT_MEMHEAP_SIZE from hg ▸ rfl, havail,
        RT_MEMHEAP_SIZE_eq]
      simp only [freeRoom_append, freeRoom_cons, total_append, total_cons, total_nil, freeRoom_nil,
        Block.join_size, Block.join_used, ha, hb, Bool.false_eq_true, if_false] at hle hfits ⊢
      rw [add32_of_lt (by omega)]
      omega
    have hright := hmerge.joinRight rfl (by simp) hga hpost
    have hleft' : g.start_addr + total pre' = h.start_addr + total pre' := by rw [hsame.start_addr]
    rw [hleft'] at hright
    dsimp only at hright
    obtain ⟨hsame', c, tail, fl', hc, hcu, hca, hco, hhead, hj⟩ := hright
    have hlast := @Coalesced.last_used _ _ pre' [] a hpre ha
    exact ⟨hsame.trans hsame', _, _, hc.holds hca (hpre.left.insert_free hco hlast hhead),
      (joined_join _ pre' post ha hb).trans (hsame.start_addr ▸ hj)⟩

theorem rt_memheap_free_spec (hh : Holds h (pre ++ b :: post) fl) (hb : b.used = true) :
    ∃ h', rt_memheap_free h (some (h.start_addr + total pre + 24)) = some h' ∧
      Freed h (pre ++ b :: post) (h.start_addr + total pre) h' := by
  have hs := hh.toShape
  have hmagic : h.get .magic (h.start_addr + total pre) = magicWord true := by
    rw [hs.magic _ b (mem_placed.mpr ⟨pre, post, rfl, rfl⟩), hb]
  have hpool : h.get .pool_ptr (h.start_addr + total pre) = h.self :=
    hs.pool _ (mem_starts_first _ pre post b)
  have hbehind : h.get .magic (h.get .next (h.start_addr + total pre)) &&& RT_MEMHEAP_MASK =
      RT_MEMHEAP_MAGIC := by
    have hword : ∀ u, magicWord u &&& RT_MEMHEAP_MASK = RT_MEMHEAP_MAGIC := by decide
    obtain ⟨u, hu⟩ := hs.next_magic
    rw [hu, hword]
  have hsize : MEMITEM_SIZE (h.set .magic (h.start_addr + total pre) (magicWord false))
      (h.start_addr + total pre) = b.size - 24 :=
    (hh.pending.release hb).memitem_size
  have hfree := hh.available_eq
  have hbr := b.room_le
  have hle := freeRoom_le (pre ++ b.mark false :: post)
  have hfits := hh.fits
  have havail : add32 h.available_size (b.size - 24) = freeRoom (pre ++ b.mark false :: post) := by
    simp only [freeRoom_append, freeRoom_cons, total_append, total_cons, Block.mark_size,
      Block.mark_used, hb, Bool.false_eq_true, if_false, if_true] at hfree hle hfits ⊢
    rw [add32_of_lt (by omega)]
    omega
  have hmarked := (hh.pending.release hb).account (add32 h.available_size (b.size - 24))
  obtain ⟨hsame, bs', fl', hholds, hj⟩ :=
    hmarked.coalesce rfl havail hh.coalesced.left hh.coalesced.right.tail
  refine ⟨coalesce { h.set .magic (h.start_addr + total pre) (magicWord false) with
    available_size := add32 h.available_size (b.size - 24) } (h.start_addr + total pre), ?_,
    ⟨hsame.self, hsame.start_addr, hsame.pool_size, hsame.free_list⟩, bs', fl', hholds,
    fun z => ?_, fun k hk => hj.grain k ?_⟩
  · rw [rt_memheap_free_eq hmagic hbehind hpool, hsize]
  · refine (hj.live z).trans ?_
    have h1 : MarkedAt true h.start_addr pre z → _ := fun hz => hz.le
    have h2 : MarkedAt true (h.start_addr + total pre + b.size) post z → _ := fun hz => hz.le
    rw [MemHeap.set_start_addr, markedAt_cut, markedAt_cut]
    simp only [hb, Block.mark_used, Block.mark_size]
    grind
  · simpa only [List.forall_mem_append, List.forall_mem_cons, Block.mark_size] using hk

end Free

/-! ### Reallocation in place -/

section Resize

variable {h : MemHeap} {pre post : List Blk} {b c d e : Blk} {fl f1 f2 : List Nat} {newsize : Nat}

/-- A listed item becomes the pending one. -/
theorem Pending.removeFree {bs : List Blk} {y : Nat} (hp : Pending h bs (f1 ++ y :: f2) none) :
    Pending (removeFree h y) bs (f1 ++ f2) (some y) := by
  have hnd := (List.nodup_cons.mp (List.nodup_middle.mp hp.fl_nodup)).1
  refine ⟨hp.toShape.removeFree, hp.pool_eq, fun z => ?_, hp.used_room⟩
  have hz := hp.listed z
  rw [show (Memheap.removeFree h y).start_addr = h.start_addr from rfl]
  simp only [List.mem_append, List.mem_cons] at hz hnd ⊢
  grind

/-- A block in use absorbs the pending block behind it. -/
theorem Pending.unlink (hp : Pending h (pre ++ b :: d :: post) fl
      (some (h.start_addr + total pre + b.size))) (hb : b.used = true) (hd : d.used = false)
    (hsize : c.size = b.size + d.size) (hc : c.used = true) :
    let y := h.start_addr + total pre + b.size
    let h1 := h.set .prev (h.get .next y) (h.get .prev y)
    Pending (h1.set .next (h1.get .prev y) (h1.get .next y)) (pre ++ c :: post) fl none := by
  intro y h1
  have hbr := b.room_le
  have hdr := d.room_le
  have hout : h.start_addr + total pre + b.size ∉ fl := fun hm => ((hp.listed _).mp hm).2 rfl
  refine ⟨hp.toShape.unlink hsize (hc.trans hb.symm) hout, ?_, fun z => ?_, ?_⟩
  · refine hp.pool_eq.trans ?_
    simp only [total_append, total_cons]
    omega
  · have hz := hp.listed_cut z
    have h1 : MarkedAt false h.start_addr pre z → _ := fun hz => hz.le
    have h2 : MarkedAt false (h.start_addr + total pre + b.size + d.size) post z → _ := fun hz => hz.le
    rw [MemHeap.set_start_addr, MemHeap.set_start_addr, markedAt_cut, hsize, ← Nat.add_assoc]
    rw [markedAt_cons] at hz
    simp only [hb, hc, hd] at hz ⊢
    grind
  · have hr := hp.used_room
    simp only [List.forall_mem_append, List.forall_mem_cons] at hr ⊢
    exact ⟨hr.1, fun _ => by have := hr.2.1 hb; omega, hr.2.2.2⟩

@[simp] theorem expand_available_size (h : MemHeap) (x m n : Nat) :
    (expand h x m n).available_size = sub32 h.available_size (sub32 n m) := rfl

/-- A block in use grows into the free block behind it. -/
theorem expand_holds (hh : Holds h (pre ++ b :: d :: post) fl) (hb : b.used = true)
    (hd : d.used = false) (hc : c.used = true) (he : e.used = false) (hcs : c.size = newsize + 24)
    (hsize : b.size + d.size = c.size + e.size) (hlt : b.size < c.size) :
    ∃ fl', Holds (expand h (h.start_addr + total pre) (b.size - 24) newsize) (pre ++ c :: e :: post)
      fl' := by
  have hbr := b.room_le
  have hdr := d.room_le
  have her := e.room_le
  have hroom := hh.used_room b (by simp) hb
  have hfits := hh.fits
  have hfree := hh.available_eq
  have hle := freeRoom_le (pre ++ b :: d :: post)
  simp only [total_append, total_cons, freeRoom_append, freeRoom_cons, hb, hd, if_true,
    Bool.false_eq_true, if_false] at hfits hfree hle
  have hmem : h.start_addr + total pre + b.size ∈ fl := by
    refine (hh.listed_cut _).mpr (Or.inr (Or.inr ?_))
    exact markedAt_cons.mpr (Or.inl ⟨rfl, hd⟩)
  obtain ⟨f1, f2, rfl⟩ := List.append_of_mem hmem
  let m : Blk := ⟨b.size + d.size, true, by omega, Nat.dvd_add b.align_dvd d.align_dvd⟩
  have hp := (hh.pending.account (sub32 h.available_size (sub32 newsize (b.size - 24)))).recordUse
  have hcut := (hp.removeFree.unlink (c := m) hb hd rfl rfl).splitBlock (c := c) (d := e) rfl hc he
    hsize (by omega)
  have hins := hcut.insertFree (markedAt_cut.mpr (Or.inr (Or.inr
    (markedAt_cons.mpr (Or.inl ⟨rfl, he⟩)))))
  have hnew : add32 (h.start_addr + total pre + RT_MEMHEAP_SIZE) newsize =
      h.start_addr + total pre + c.size := by
    rw [RT_MEMHEAP_SIZE_eq, add32_of_lt (by omega)]
    omega
  refine ⟨_, @Pending.holds _ _ ((h.start_addr + total pre + c.size) :: (f1 ++ f2)) ?_ ?_ ?_⟩
  · unfold expand
    dsimp only
    rw [hnew, hh.toShape.next]
    exact hins
  · rw [expand_available_size]
    simp only [freeRoom_append, freeRoom_cons, hc, he, if_true, Bool.false_eq_true, if_false]
    have hgrow : sub32 newsize (b.size - 24) = newsize - (b.size - 24) :=
      sub32_of_le (by omega) (by omega)
    rw [hgrow, sub32_of_le (by omega) (by omega)]
    omega
  · have hco := hh.coalesced
    exact hco.left.insert_used
      (hco.right.tail.tail.cons_free (hco.right.tail.head_used hd)) hc

/-- What `shrink` does with the item it made. -/
def giveBack (h : MemHeap) (new_ptr : Nat) : MemHeap :=
  let right := h.get .next new_ptr
  let h :=
    if ¬RT_MEMHEAP_IS_USED h right then
      mergeNext { h with available_size := sub32 h.available_size (MEMITEM_SIZE h right) } new_ptr right
    else h
  let h := insertFree h new_ptr
  { h with available_size := add32 h.available_size (MEMITEM_SIZE h new_ptr) }

theorem shrink_eq (h : MemHeap) (x n : Nat) : shrink h x n =
    giveBack (splitBlock h x (x + n + RT_MEMHEAP_SIZE)) (x + n + RT_MEMHEAP_SIZE) := rfl

/-- The pending block absorbs a free block behind it and is listed. -/
theorem Pending.giveBack (hp : Pending h (pre ++ d :: post) fl (some (h.start_addr + total pre)))
    (hd : d.used = false) (havail : h.available_size = freeRoom (pre ++ post))
    (hpre : Coalesced pre) (hpost : Coalesced post) (hlast : ∀ y ∈ pre.getLast?, y.used = true) :
    SamePool h (giveBack h (h.start_addr + total pre)) ∧ ∃ e tail fl', e.used = false ∧
      Holds (giveBack h (h.start_addr + total pre)) (pre ++ e :: tail) fl' ∧
      Joined h.start_addr (pre ++ d :: post) (pre ++ e :: tail) := by
  let new_ptr := h.start_addr + total pre
  let right := h.get .next new_ptr
  let g :=
    if ¬RT_MEMHEAP_IS_USED h right then
      Memheap.mergeNext { h with available_size := sub32 h.available_size (MEMITEM_SIZE h right) }
        new_ptr right
    else h
  let g' := Memheap.insertFree g new_ptr
  -- one block `e` is pending, and the free space without it is counted
  obtain ⟨hsame, e, tail, fl', hg, heu, hga, hco, hhead, hj⟩ : SamePool h g ∧ ∃ e tail fl',
      Pending g (pre ++ e :: tail) fl' (some new_ptr) ∧ e.used = false ∧
      g.available_size = freeRoom (pre ++ tail) ∧ Coalesced tail ∧ (∀ y ∈ tail.head?, y.used = true) ∧
      Joined h.start_addr (pre ++ d :: post) (pre ++ e :: tail) := by
    rcases hp.toShape.right_cases with ⟨hu, hhead⟩ | ⟨r, post', rfl, hr, hnext, hu⟩
    · have hg : g = h := if_neg (not_not.mpr hu)
      rw [hg]
      exact ⟨SamePool.refl h, d, post, fl, hp, hd, havail, hpost, hhead, Joined.refl _ _⟩
    · have hright : right = new_ptr + d.size := hnext
      have hg : g = Memheap.mergeNext
          { h with available_size := sub32 h.available_size (MEMITEM_SIZE h right) } new_ptr right :=
        if_pos (hright ▸ hu)
      have hdr := d.room_le
      have hle := freeRoom_le (pre ++ r :: post')
      have hfits := hp.fits
      have hp' : Shape h ((pre ++ [d]) ++ r :: post') fl := by simpa using hp.toShape
      have hsize : MEMITEM_SIZE h right = r.size - 24 := by
        have hs := hp'.memitem_size
        simp only [total_append, total_cons, total_nil, Nat.add_zero, ← Nat.add_assoc] at hs
        rw [hright]
        exact hs
      have hmem : right ∈ fl := by
        refine (hp.listed right).mpr ⟨markedAt_cut.mpr (Or.inr (Or.inr ?_)), fun hxr => ?_⟩
        · exact markedAt_cons.mpr (Or.inl ⟨hright, hr⟩)
        · have : right = new_ptr := Option.some.inj hxr
          omega
      obtain ⟨f1, f2, rfl⟩ := List.append_of_mem hmem
      have hmerged : Pending g (pre ++ d.join r :: post') (f1 ++ f2) (some new_ptr) := by
        rw [hright] at hp hg
        rw [hg]
        exact (hp.account (sub32 h.available_size (MEMITEM_SIZE h (new_ptr + d.size)))).mergeNext hd hr
      refine ⟨hg ▸ ⟨rfl, rfl, rfl, rfl⟩, _, _, _, hmerged, rfl, ?_, hpost.tail, hpost.head_used hr,
        joined_join _ _ _ hd hr⟩
      rw [show g.available_size = sub32 h.available_size (MEMITEM_SIZE h right) from hg ▸ rfl, havail,
        hsize]
      simp only [freeRoom_append, freeRoom_cons, total_append, total_cons, hr, Bool.false_eq_true,
        if_false] at hle hfits ⊢
      rw [sub32_of_le (by omega) (by omega)]
      omega
  have hat : new_ptr = g.start_addr + total pre := by rw [hsame.start_addr]
  have hins : Pending g' (pre ++ e :: tail) (new_ptr :: fl') none :=
    hg.insertFree (markedAt_cut.mpr (Or.inr (Or.inl ⟨hat, heu⟩)))
  have hsize : MEMITEM_SIZE g' new_ptr = e.size - 24 := by
    rw [hat]
    exact hins.memitem_size
  have hle := freeRoom_le (pre ++ e :: tail)
  have hfits := hg.fits
  have hback : Memheap.giveBack h (h.start_addr + total pre) =
      { g' with available_size := add32 g'.available_size (MEMITEM_SIZE g' new_ptr) } := rfl
  rw [hback]
  refine ⟨⟨hsame.self, hsame.start_addr, hsame.pool_size, hsame.free_list⟩, e, tail, _, heu,
    Pending.holds (hins.account _) ?_ (hpre.insert_free hco hlast hhead), hj⟩
  rw [hsize, show g'.available_size = g.available_size from rfl, hga]
  simp only [freeRoom_append, freeRoom_cons, heu, Bool.false_eq_true, if_false] at hle hfits ⊢
  rw [add32_of_lt (by omega)]
  omega

@[simp] theorem splitBlock_start_addr (h : MemHeap) (x y : Nat) :
    (splitBlock h x y).start_addr = h.start_addr := rfl

/-- A block in use gives its tail back. -/
theorem shrink_holds (hh : Holds h (pre ++ b :: post) fl) (hb : b.used = true) (hc : c.used = true)
    (hd : d.used = false) (hcs : c.size = newsize + 24) (hsize : b.size = c.size + d.size)
    (hroom : 36 ≤ c.size) :
    SamePool h (shrink h (h.start_addr + total pre) newsize) ∧ ∃ e tail fl', e.used = false ∧
      Holds (shrink h (h.start_addr + total pre) newsize) (pre ++ c :: e :: tail) fl' ∧
      Joined h.start_addr (pre ++ c :: d :: post) (pre ++ c :: e :: tail) := by
  have hsplit := hh.pending.splitBlock hb hc hd hsize hroom
  have hat : h.start_addr + total pre + c.size = h.start_addr + total (pre ++ [c]) := by
    simp [Nat.add_assoc]
  have hnew : h.start_addr + total pre + newsize + RT_MEMHEAP_SIZE =
      h.start_addr + total (pre ++ [c]) := by
    rw [RT_MEMHEAP_SIZE_eq, ← hat]
    omega
  have hfree := hh.available_eq
  have hcons : ∀ l, pre ++ c :: l = (pre ++ [c]) ++ l := fun l => List.append_cons pre c l
  rw [hat, hcons (d :: post)] at hsplit
  have hback := hsplit.giveBack hd (by
    refine hfree.trans ?_
    simp [hb, hc]) (hh.coalesced.left.insert_used List.isChain_nil hc) hh.coalesced.right.tail
    (by simp [hc])
  rw [splitBlock_start_addr] at hback
  rw [shrink_eq, hnew, hcons (d :: post)]
  obtain ⟨hsame, e, tail, fl', he, hholds, hj⟩ := hback
  refine ⟨⟨hsame.self, hsame.start_addr, hsame.pool_size, hsame.free_list⟩, e, tail, fl', he, ?_, ?_⟩
  · rw [hcons (e :: tail)]
    exact hholds
  · rw [hcons (e :: tail)]
    exact hj

end Resize

end Ab32Vg1.Kernel.Memheap
