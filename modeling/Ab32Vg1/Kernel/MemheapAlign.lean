import Ab32Vg1.Kernel.MemheapRun

/-! The alignment and the room of what `rt_memheap_alloc` returns. -/

namespace Ab32Vg1.Kernel.Memheap

open ProofKit ProofKit.Tiling

/-- A pointer that `rt_memheap_alloc(size)` returns is aligned, behind a used item of the pool, and has
room for `size` bytes before the next item. -/
def AllocKeeps (h : MemHeap) (size : Nat) : Prop :=
  ∀ fuel g p, rt_memheap_alloc fuel h size = some (g, some p) →
    RT_ALIGN_SIZE ∣ p ∧ RT_MEMHEAP_IS_USED g (p - RT_MEMHEAP_SIZE) ∧
      g.get .pool_ptr (p - RT_MEMHEAP_SIZE) = g.self ∧ p + size ≤ g.get .next (p - RT_MEMHEAP_SIZE)

/-- The call is in range and cuts no block at 12 bytes. -/
def Op.Aligned (w : World) (op : Op) : Prop := op.Safe w ∧ op.Even w.heap

section

variable {h g : MemHeap} {bs : List Blk} {fl : List Nat} {n p x size : Nat}

/-- The first item with room is one of the free list. -/
theorem FirstRoom.mem (hr : FirstRoom h n x) (hh : Holds h bs fl) :
    x ∈ fl ∧ n ≤ MEMITEM_SIZE h x := by
  obtain ⟨l1, l2, hc, hno, -, hroom⟩ := hr
  have hfl : l1 ++ x :: l2 = fl := hc.unique hh.free hno hh.header_not_mem
  exact ⟨by simp [← hfl], hroom⟩

theorem Cut.used {post tail : List Blk} {b c : Blk} (hcut : Cut b post n c tail) :
    c.used = true := by
  cases hcut with
  | part hc hd hcs hbs hroom => exact hc
  | whole hfit hrest => rfl

theorem Cut.fits {post tail : List Blk} {b c : Blk} (hcut : Cut b post n c tail) :
    n + 24 ≤ b.size := by
  cases hcut with
  | part hc hd hcs hbs hroom => omega
  | whole hfit hrest => exact hfit

/-- The item of what is given out. -/
theorem Allocated.item (ha : Allocated h bs fl n g p) (hs : 8 ∣ h.start_addr)
    (h8 : ∀ b ∈ bs, 8 ∣ b.size) :
    8 ∣ p ∧ RT_MEMHEAP_IS_USED g (p - RT_MEMHEAP_SIZE) ∧
      g.get .pool_ptr (p - RT_MEMHEAP_SIZE) = g.self ∧ p + n ≤ g.get .next (p - RT_MEMHEAP_SIZE) ∧
      g.get .next (p - RT_MEMHEAP_SIZE) + 24 ≤ 2 ^ 32 := by
  obtain ⟨hsame, pre, b, post, c, tail, f1, f2, fl', rfl, hb, rfl, -, rfl, hcut, hg⟩ := ha
  have hpre : 8 ∣ total pre := by
    simp only [List.forall_mem_append] at h8
    exact dvd_total h8.1
  have hroom := hcut.room
  have hfits := hg.fits
  have hx : h.start_addr + total pre + 24 - RT_MEMHEAP_SIZE = g.start_addr + total pre := by
    rw [RT_MEMHEAP_SIZE_eq, hsame.start_addr, Nat.add_sub_cancel]
  rw [total_append, total_cons] at hfits
  rw [hx, hg.toShape.used_iff, hg.toShape.next]
  have hstart := hsame.start_addr
  exact ⟨by omega, hcut.used, hg.pool _ (mem_starts_first _ pre tail c), by omega, by omega⟩

/-- In a run that cuts no block at 12 bytes every block of an aligned pool is aligned. -/
theorem reachable_aligned {words : Words} {memheap free_header start_addr : Nat} {w : World}
    (hl : Layout free_header start_addr size) (hsize : 48 ≤ RT_ALIGN_DOWN size RT_ALIGN_SIZE)
    (hs : 8 ∣ start_addr)
    (hr : ((poolMachine words memheap free_header start_addr size).restrict Op.Aligned).Reachable w) :
    ∃ bs fl, Tracks w bs fl ∧ 8 ∣ w.heap.start_addr ∧ ∀ b ∈ bs, 8 ∣ b.size := by
  apply hr.invariant
  · rintro w rfl
    obtain ⟨hstart, b, hb, h8, hh⟩ :=
      rt_memheap_init_spec words memheap hl hsize
    refine ⟨[b], _, ⟨hh, fun p => ?_, List.nodup_nil⟩, ?_, by simpa using h8⟩
    · simp [LivePtr, hb, MarkedAt, placed]
    · rwa [hstart]
  · rintro w op w' - ⟨bs, fl, ht, hs, h8⟩ ⟨⟨hsafe, heven⟩, hv, fuel, got, hcall, hlive⟩
    have he := (call_returns ht op hv hsafe).post hcall
    obtain ⟨bs', fl', ht', hkeep⟩ := he.tracks ht hlive
    exact ⟨bs', fl', ht', he.same.start_addr ▸ hs, hkeep heven h8⟩

theorem le_alignedSize (hle : size ≤ 2 ^ 32 - 8) : size ≤ alignedSize size := by
  have hal : RT_ALIGN size 8 = (size + 7) / 8 * 8 := RT_ALIGN_eight hle
  rw [alignedSize_eq, hal]
  split <;> omega

/-- A size behind the last aligned word is rounded to the minimum. -/
theorem alignedSize_wraps (hlt : size < 2 ^ 32) (hbig : 2 ^ 32 - 8 < size) : alignedSize size = 12 := by
  have hal : RT_ALIGN size 8 = 0 := by
    have hdvd := RT_ALIGN_eight_dvd size
    have hle : RT_ALIGN size 8 ≤ (size + 7) % 2 ^ 32 := Nat.and_le_left
    omega
  rw [alignedSize_eq, hal]
  decide

theorem Holds.allocKeeps_iff (hh : Holds h bs fl) (hs : 8 ∣ h.start_addr) (h8 : ∀ b ∈ bs, 8 ∣ b.size)
    (hlt : size < 2 ^ 32) : AllocKeeps h size ↔ size ≤ 2 ^ 32 - 8 ∨ ∀ x, ¬FirstRoom h 12 x := by
  have hspec := rt_memheap_alloc_spec hh size
  constructor
  · intro hkeeps
    by_contra hno
    simp only [not_or, not_le, not_forall, not_not] at hno
    obtain ⟨hbig, x, hx⟩ := hno
    obtain ⟨hmem, hroom⟩ := hx.mem hh
    rw [alignedSize_wraps hlt hbig] at hspec
    obtain ⟨⟨g, got⟩, hrun⟩ := hspec.total (Nat.lt_succ_self _)
    rcases hspec.post hrun with ⟨-, hle | hall⟩ | ⟨p, rfl, ha⟩
    · -- the free block with room is a multiple of 8, so there are more than 12 bytes
      obtain ⟨pre, b, post, rfl, rfl, hb, hsize⟩ := hh.of_mem hmem
      have hb8 := h8 b (by simp)
      rw [hh.available_eq, freeRoom_append, freeRoom_cons, hb] at hle
      simp only [Bool.false_eq_true, if_false] at hle
      omega
    · exact absurd (hall x hmem) (by omega)
    · dsimp only at ha
      obtain ⟨-, -, -, hend⟩ := hkeeps _ _ _ hrun
      obtain ⟨-, -, -, -, hfits⟩ := ha.item hs h8
      omega
  · intro hwhen fuel g p hrun
    rcases hspec.post hrun with ⟨heq, -⟩ | ⟨q, hq, ha⟩
    · cases heq
    · obtain rfl : p = q := Option.some.inj hq
      dsimp only at ha
      obtain ⟨halign, hused, hself, hend, -⟩ := ha.item hs h8
      refine ⟨halign, hused, hself, ?_⟩
      rcases hwhen with hle | hno
      · have := le_alignedSize hle
        omega
      · -- nothing is given out for a wrapped size
        by_cases hle : size ≤ 2 ^ 32 - 8
        · have := le_alignedSize hle
          omega
        · rw [alignedSize_wraps hlt (by omega)] at ha
          obtain ⟨-, pre, b, post, c, tail, f1, f2, fl', rfl, hb, rfl, hall, -, hcut, -⟩ := ha
          refine absurd ⟨f1, f2, hh.free, hh.header_not_mem, hall, ?_⟩ (hno (h.start_addr + total pre))
          rw [hh.memitem_size]
          have hfit := hcut.fits
          omega

end

/-- In an aligned pool, in a run that cuts no block at 12 bytes, what `rt_memheap_alloc` returns is as
promised for every size that does not wrap, and otherwise only when nothing is returned. -/
theorem rt_memheap_alloc_keeps {words : Words} {memheap free_header start_addr size n : Nat}
    {w : World} (hl : Layout free_header start_addr size)
    (hsize : 48 ≤ RT_ALIGN_DOWN size RT_ALIGN_SIZE) (hs : RT_ALIGN_SIZE ∣ start_addr)
    (hr : ((poolMachine words memheap free_header start_addr size).restrict Op.Aligned).Reachable w)
    (hlt : n < 2 ^ 32) :
    AllocKeeps w.heap n ↔ n ≤ 2 ^ 32 - 8 ∨ ∀ x, ¬FirstRoom w.heap 12 x := by
  obtain ⟨bs, fl, ht, hstart, h8⟩ := reachable_aligned hl hsize hs hr
  exact ht.holds.allocKeeps_iff hstart h8 hlt

example : alignedSize 8 = 12 := by decide +kernel

/-- A call for more than 8 bytes, if its pointer is live. -/
def World.nextLarge (w : World) (op : Op) : Option World :=
  if alignedSize op.args.2 = 12 then none else w.next 1000 op

theorem World.nextLarge_aligned {w w' : World} {op : Op} (h : w.nextLarge op = some w') :
    op.Aligned w ∧ w.next 1000 op = some w' := by
  obtain ⟨h12, hnext⟩ := Option.ite_none_left_eq_some.mp h
  refine ⟨⟨World.next_safe (by decide) hnext, ?_⟩, hnext⟩
  cases op with
  | alloc size => exact fun hc => absurd hc h12
  | realloc ptr newsize => exact fun _ hc => absurd hc h12
  | free ptr => trivial
  | store words => trivial

theorem rt_memheap_alloc_keeps_after_two : ∃ w,
    Machine.runs World.nextLarge ⟨pool512, []⟩ [.alloc 16, .realloc (some 0x10018) 9, .alloc 100] =
      some w ∧ (AllocKeeps w.heap 20 ↔ 20 ≤ 2 ^ 32 - 8 ∨ ∀ x, ¬FirstRoom w.heap 12 x) := by
  have hrun : ∃ w, Machine.runs World.nextLarge ⟨pool512, []⟩
      [.alloc 16, .realloc (some 0x10018) 9, .alloc 100] = some w ∧ w.live.length = 2 := by
    decide +kernel
  obtain ⟨w, hw, -⟩ := hrun
  have hr : ((poolMachine (fun _ => 0) 0x8000 0x8040 0x10000 512).restrict Op.Aligned).Reachable w := by
    refine (Machine.Reachable.start rfl).runs (fun _ _ _ h => ?_) hw
    obtain ⟨haligned, hnext⟩ := World.nextLarge_aligned h
    exact ⟨haligned, World.next_step (by decide) hnext⟩
  exact ⟨w, hw, rt_memheap_alloc_keeps pool512_layout (by decide) (by decide) hr (by decide)⟩

/-- After `rt_memheap_alloc(1)` the next pointer is not aligned. -/
theorem rt_memheap_alloc_misaligned : ∃ w,
    (poolMachine (fun _ => 0) 0x8000 0x8040 0x10000 512).Reachable w ∧ ¬AllocKeeps w.heap 16 := by
  have hrun : ∃ w, Machine.runs (World.next 1000) ⟨pool512, []⟩ [.alloc 1] = some w ∧
      (rt_memheap_alloc 2 w.heap 16).map Prod.snd = some (some 0x1003c) := by
    decide +kernel
  obtain ⟨w, hw, hsnd⟩ := hrun
  refine ⟨w, (Machine.Reachable.start rfl).runs (fun _ _ _ h => World.next_step (by decide) h) hw, ?_⟩
  intro hkeeps
  obtain ⟨⟨g, got⟩, halloc, rfl⟩ := Option.map_eq_some_iff.mp hsnd
  have halign := (hkeeps _ _ _ halloc).1
  revert halign
  decide

end Ab32Vg1.Kernel.Memheap
