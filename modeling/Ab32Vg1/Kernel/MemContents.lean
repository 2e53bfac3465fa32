import Ab32Vg1.Kernel.MemFit

/-! What the blocks hold across `rt_realloc`, in a reached state of the heap. -/

namespace Ab32Vg1.Kernel.Mem

open ProofKit ProofKit.Tiling

/-- `rt_realloc` of the live pointer `p` to `newsize` bytes gave `q`: the contents are at `q`, every
other live block is where it was with what it held, and the old block is free space unless it is that
of `q`. -/
structure Reallocated (w : World) (p newsize : Nat) (g : Heap) (q : Nat) : Prop where
  content : ∀ k, p + k < areaEnd w.heap p → k < newsize → g.bytes (q + k) = w.heap.bytes (p + k)
  room : q + newsize ≤ areaEnd g q
  others : ∀ x ∈ w.live, x ≠ p → areaEnd g x = areaEnd w.heap x ∧
    ∀ i, x ≤ i → i < areaEnd w.heap x → g.bytes i = w.heap.bytes i
  live : ∃ os, HeapInvariant ⟨g, settle w.live (some p) (some q)⟩ os
  released : q = p ∨ ∃ o, IsBlock g o ∧ g.used (g.heap_ptr + o) = 0 ∧
    g.heap_ptr + o + SIZEOF_STRUCT_MEM ≤ p ∧ areaEnd w.heap p ≤ g.heap_ptr + g.next (g.heap_ptr + o)

/-- `rt_realloc(p, newsize)` returns, and a pointer that it returns holds what `p` held. -/
def ReallocKeeps (w : World) (p newsize : Nat) : Prop :=
  ∃ fuel g got, rt_realloc fuel w.heap (some p) newsize = some (g, got) ∧
    ∀ q, got = some q → Reallocated w p newsize g q

/-- The free space of a tiling, seen in the headers. -/
theorem Shape.inFree {g : Heap} {bs : List Blk} {lo hi : Nat} (hs : Shape g bs)
    (hf : InFree 0 bs lo hi) :
    ∃ o, IsBlock g o ∧ g.used (g.heap_ptr + o) = 0 ∧ o ≤ lo ∧ hi ≤ g.next (g.heap_ptr + o) := by
  obtain ⟨o, b, hmem, hb, hlo, hhi⟩ := hf
  obtain ⟨pre, post, rfl, hoff⟩ := mem_placed.mp hmem
  obtain rfl : o = total pre := by omega
  have hnext : g.next (g.heap_ptr + total pre) = total pre + b.size := hs.header.next
  refine ⟨_, hs.isBlock_iff.mpr ⟨pre, b, post, rfl, rfl⟩, hs.used_iff.mpr hb, hlo, ?_⟩
  rw [hnext]
  exact hhi

theorem Resized.reallocated {w : World} {bs : List Blk} {p newsize q : Nat} {g : Heap}
    (ht : Tracks w bs) (hp : p ∈ w.live) (hr : Resized w.heap bs p newsize g q) :
    Reallocated w p newsize g q where
  content := hr.content
  room := hr.room
  others x hx hne := by
    have hsame := hr.others x ((ht.live_iff x).mp hx) hne
    refine ⟨?_, hsame.bytes⟩
    rw [areaEnd, areaEnd, hsame.next, hr.effect.same.heap_ptr]
  live := by
    have htracks : ∃ bs', Tracks ⟨g, settle w.live (some p) (some q)⟩ bs' :=
      Effect.tracks ht hr.effect rfl
    obtain ⟨bs', ht'⟩ := htracks
    exact ⟨_, ht'.heapInvariant⟩
  released := by
    refine hr.released.imp id ?_
    rintro ⟨bs', hh', hf⟩
    obtain ⟨o, hblock, hfree, hlo, hhi⟩ := hh'.toShape.inFree hf
    have hptr := hr.effect.same.heap_ptr
    obtain ⟨o', -, rfl⟩ := (ht.live_iff p).mp hp
    rw [SIZEOF_STRUCT_MEM_eq] at hlo
    refine ⟨o, hblock, hfree, ?_, ?_⟩
    · rw [SIZEOF_STRUCT_MEM_eq]
      omega
    · rw [areaEnd, hptr]
      exact Nat.add_le_add_left (hptr ▸ hhi) _

/-- In a reached state `rt_realloc` of a live pointer keeps the contents. -/
theorem rt_realloc_keeps {bytes : Bytes} {begin_addr end_addr : Nat} {w : World}
    (hr : (heapMachine bytes begin_addr end_addr).Reachable w) {p newsize : Nat} (hp : p ∈ w.live)
    (hn : newsize ≤ 2 ^ 32 - 8) : ReallocKeeps w p newsize := by
  by_cases hok : regionOk (RT_ALIGN begin_addr RT_ALIGN_SIZE)
      (RT_ALIGN_DOWN end_addr RT_ALIGN_SIZE)
  · obtain ⟨bs, ht, hmem⟩ := reachable_tracked hok hr
    have h8 : w.heap.mem_size_aligned ≠ 8 := fun h8 => by
      rw [hmem (by omega)] at hp
      simp at hp
    have hspec := rt_realloc_spec ht.holds hn h8 ((ht.live_iff p).mp hp)
    obtain ⟨⟨g, got⟩, hrun⟩ := hspec.total (Nat.lt_succ_self _)
    refine ⟨_, g, got, hrun, ?_⟩
    rintro q rfl
    cases hspec.post hrun with
    | resized hz hres => exact hres.reallocated ht hp
  · -- without an arena no pointer is live
    rw [rejected_reachable hok hr] at hp
    simp at hp

theorem rt_realloc_keeps_first_block :
    ∃ g, rt_malloc 8 (rt_system_heap_init (boot fun _ => 0) 0x10000 0x10100) 20 =
        some (g, some 0x10010) ∧ ReallocKeeps ⟨g, [0x10010]⟩ 0x10010 100 := by
  have hsome : (rt_malloc 8 (rt_system_heap_init (boot fun _ => 0) 0x10000 0x10100) 20).isSome := by
    decide
  obtain ⟨⟨g, got⟩, hrun⟩ := Option.isSome_iff_exists.mp hsome
  have hgot : got = some 0x10010 := by
    have hsnd : (rt_malloc 8 (rt_system_heap_init (boot fun _ => 0) 0x10000 0x10100) 20).map
        Prod.snd = some (some 0x10010) := by decide
    rw [hrun] at hsnd
    exact Option.some.inj hsnd
  subst hgot
  have hstart : (heapMachine (fun _ => 0) 0x10000 0x10100).Reachable
      ⟨rt_system_heap_init (boot fun _ => 0) 0x10000 0x10100, []⟩ := Machine.Reachable.start rfl
  have hr : (heapMachine (fun _ => 0) 0x10000 0x10100).Reachable ⟨g, [0x10010]⟩ :=
    hstart.next (l := .malloc 20) ⟨show 20 ≤ 2 ^ 32 - 8 by decide, 8, some 0x10010, hrun, rfl⟩
  exact ⟨g, hrun, rt_realloc_keeps hr (by simp) (by decide)⟩

end Ab32Vg1.Kernel.Mem
