import Ab32Vg1.Kernel.MemRun

/-! First fit: which block `rt_malloc` takes in a reached state of the heap. -/

namespace Ab32Vg1.Kernel.Mem

open ProofKit ProofKit.Tiling

/-- Following `next` from offset 0 visits a block at offset `o`. -/
def IsBlock (h : Heap) (o : Nat) : Prop := ∃ os, Visits h 0 os ∧ o ∈ os

/-- The block at offset `o` is free and its user area has room for `size` bytes. -/
def FitsAt (h : Heap) (size o : Nat) : Prop :=
  IsBlock h o ∧ h.used (h.heap_ptr + o) = 0 ∧
    o + SIZEOF_STRUCT_MEM + size ≤ h.next (h.heap_ptr + o)

/-- The lowest block that fits is at offset `o`. -/
def LowestFit (h : Heap) (size o : Nat) : Prop := FitsAt h size o ∧ ∀ q, FitsAt h size q → o ≤ q

/-- The block of `g` at offset `o` is in use, has room for `size` bytes and lies inside that of
`h`. -/
structure Carved (h g : Heap) (size o : Nat) : Prop where
  block : IsBlock g o
  used : g.used (g.heap_ptr + o) ≠ 0
  room : o + SIZEOF_STRUCT_MEM + size ≤ g.next (g.heap_ptr + o)
  inside : g.next (g.heap_ptr + o) ≤ h.next (h.heap_ptr + o)

/-- `rt_malloc(n)` returns, and it takes the lowest block that fits unless there is none. -/
def FirstFit (h : Heap) (n : Nat) : Prop :=
  ∃ fuel g got, rt_malloc fuel h n = some (g, got) ∧
    match got with
    | none => ∀ o, ¬FitsAt h (request n) o
    | some p => ∃ o, LowestFit h (request n) o ∧ p = h.heap_ptr + o + SIZEOF_STRUCT_MEM ∧
      Carved h g (request n) o

/-- The block at offset `o` is the lowest one that fits `n` bytes, and it is not the last block, filled
exactly. -/
def Takes (h : Heap) (n o : Nat) : Prop :=
  n ≠ 0 ∧ LowestFit h (request n) o ∧ o + request n ≠ h.mem_size_aligned

/-- No block fits and the arena does not have room for 8 bytes only, or the lowest block that fits
is not the last one, filled exactly. -/
def FirstFitWhen (h : Heap) (n : Nat) : Prop :=
  ((∀ o, ¬FitsAt h (request n) o) ∧ ¬(h.mem_size_aligned = 8 ∧ 0 < n ∧ n ≤ 8)) ∨ ∃ o, Takes h n o

section

variable {h g : Heap} {bs : List Blk} {size o p n : Nat}

theorem Visits.unique {os os' : List Nat} (hv : Visits h o os) (hv' : Visits h o os') :
    os = os' := by
  induction os generalizing o os' with
  | nil =>
    cases os' with
    | nil => rfl
    | cons p ps => exact absurd hv (Nat.ne_of_lt hv'.2.1)
  | cons p ps ih =>
    cases os' with
    | nil => exact absurd hv' (Nat.ne_of_lt hv.2.1)
    | cons q qs =>
      obtain ⟨rfl, -, -, hps⟩ := hv
      obtain ⟨rfl, -, -, hqs⟩ := hv'
      rw [ih hps hqs]

theorem Shape.isBlock_iff (hs : Shape h bs) :
    IsBlock h o ↔ ∃ pre b post, bs = pre ++ b :: post ∧ o = total pre := by
  have hv : Shape h ([] ++ bs) := hs
  have hstarts : o ∈ starts 0 bs ↔ ∃ pre b post, bs = pre ++ b :: post ∧ o = total pre := by
    rw [mem_starts]
    simp only [Nat.zero_add]
  have hvisits : Visits h 0 (starts 0 bs) := hv.visits
  rw [← hstarts]
  constructor
  · rintro ⟨os, hos, ho⟩
    rwa [← hos.unique hvisits]
  · intro ho
    exact ⟨_, hvisits, ho⟩

theorem Shape.fitsAt_iff (hs : Shape h bs) :
    FitsAt h size o ↔ ∃ pre c post, bs = pre ++ c :: post ∧ o = total pre ∧ c.used = false ∧
      size + 16 ≤ c.size := by
  constructor
  · rintro ⟨hblock, hfree, hroom⟩
    obtain ⟨pre, c, post, rfl, rfl⟩ := hs.isBlock_iff.mp hblock
    have hnext : h.next (h.heap_ptr + total pre) = total pre + c.size := hs.header.next
    rw [hnext, SIZEOF_STRUCT_MEM_eq] at hroom
    exact ⟨pre, c, post, rfl, rfl, hs.used_iff.mp hfree, by omega⟩
  · rintro ⟨pre, c, post, rfl, rfl, hc, hsize⟩
    have hnext : h.next (h.heap_ptr + total pre) = total pre + c.size := hs.header.next
    refine ⟨hs.isBlock_iff.mpr ⟨pre, c, post, rfl, rfl⟩, hs.used_iff.mpr hc, ?_⟩
    rw [hnext, SIZEOF_STRUCT_MEM_eq]
    omega

/-- The lowest block that fits is the first fit of the tiling. -/
theorem Shape.lowestFit_iff (hs : Shape h bs) :
    LowestFit h size o ↔ firstFit (size + 16) 0 bs = some o := by
  constructor
  · rintro ⟨hfit, hlow⟩
    obtain ⟨pre, c, post, hbs, rfl, hc, hsize⟩ := hs.fitsAt_iff.mp hfit
    obtain ⟨p, hp, hle⟩ := @firstFit_le _ _ _ 0 pre post c hc hsize
    rw [← hbs] at hp
    obtain ⟨pre', c', post', hbs', rfl, hc', hsize', -⟩ := firstFit_eq_some hp
    have := hlow (total pre') (hs.fitsAt_iff.mpr ⟨pre', c', post', hbs', rfl, hc', hsize'⟩)
    rw [hp, show 0 + total pre' = total pre by omega]
  · intro hfirst
    obtain ⟨pre, c, post, hbs, hoff, hc, hsize, -⟩ := firstFit_eq_some hfirst
    refine ⟨hs.fitsAt_iff.mpr ⟨pre, c, post, hbs, by omega, hc, hsize⟩, fun q hq => ?_⟩
    obtain ⟨pre', c', post', hbs', rfl, hc', hsize'⟩ := hs.fitsAt_iff.mp hq
    obtain ⟨p, hp, hle⟩ := @firstFit_le _ _ _ 0 pre' post' c' hc' hsize'
    rw [← hbs', hfirst] at hp
    have := Option.some.inj hp
    omega

theorem Shape.no_fit_iff (hs : Shape h bs) :
    (∀ o, ¬FitsAt h size o) ↔ firstFit (size + 16) 0 bs = none := by
  constructor
  · intro hno
    cases hf : firstFit (size + 16) 0 bs with
    | none => rfl
    | some o => exact absurd (hs.lowestFit_iff.mpr hf).1 (hno o)
  · intro hnone o hfit
    obtain ⟨pre, c, post, rfl, -, hc, hsize⟩ := hs.fitsAt_iff.mp hfit
    have := firstFit_eq_none.mp hnone c (by simp) hc
    omega

/-- What `rt_malloc` takes is the lowest block that fits, below the limit of its loop. -/
theorem Shape.chosen_iff (hs : Shape h bs) : chosen h bs n = some o ↔ Takes h n o := by
  rw [Takes, hs.lowestFit_iff, chosen]
  by_cases hn : n = 0
  · simp [hn]
  · rw [if_neg hn, found, Option.filter_eq_some_iff]
    refine ⟨fun hf => ⟨hn, hf.1, ?_⟩, fun hf => ⟨hf.2.1, ?_⟩⟩
    · have hlt := hf.2
      simp only [decide_eq_true_eq] at hlt
      omega
    · obtain ⟨pre, c, post, hbs, hoff, -, hsize, -⟩ := firstFit_eq_some hf.2.1
      subst hbs
      have hsum := hs.sum
      have hne := hf.2.2
      simp only [decide_eq_true_eq]
      omega

theorem Allocated.carved (ha : Allocated h bs size g (h.heap_ptr + o + 16)) (hs : Shape h bs) :
    Carved h g size o := by
  obtain ⟨hsame, -, pre, c, post, b, tail, rfl, -, hg, ht, hat⟩ := ha
  obtain rfl : o = total pre := by omega
  have hroom := ht.room
  have hle := ht.le
  have hnext : h.next (h.heap_ptr + total pre) = total pre + c.size := hs.header.next
  have hnext' : g.next (g.heap_ptr + total pre) = total pre + b.size := hg.toShape.header.next
  refine ⟨hg.toShape.isBlock_iff.mpr ⟨pre, b, tail, rfl, rfl⟩, fun h0 => ?_, ?_, ?_⟩
  · have := hg.toShape.used_iff.mp h0
    simp [ht.used] at this
  · rw [hnext', SIZEOF_STRUCT_MEM_eq]
    omega
  · rw [hnext, hnext']
    omega

theorem Holds.firstFit_iff (hh : Holds h bs) (hn : n ≤ 2 ^ 32 - 8) :
    FirstFit h n ↔ FirstFitWhen h n := by
  have hs := hh.toShape
  have hal := RT_ALIGN_eight hn
  have hte := hh.total_eq
  have htotal := align_dvd_total bs
  have hreq := request_bounds n
  by_cases hfit : n = 0 ∨ h.mem_size_aligned < RT_ALIGN n 8 ∨ 16 ≤ h.mem_size_aligned
  · have hspec := rt_malloc_spec hh hfit
    constructor
    · rintro ⟨fuel, g, got, hrun, hgot⟩
      rcases hspec.post hrun with ⟨heq, -⟩ | ⟨o, ho, -⟩
      · obtain ⟨rfl, rfl⟩ := Prod.mk.inj heq
        exact Or.inl ⟨hgot, by omega⟩
      · exact Or.inr ⟨o, hs.chosen_iff.mp ho⟩
    · intro hwhen
      obtain ⟨⟨g, got⟩, hrun⟩ := hspec.total (Nat.lt_succ_self _)
      refine ⟨_, g, got, hrun, ?_⟩
      rcases hspec.post hrun with ⟨heq, hnone⟩ | ⟨o, ho, hgot, ha⟩
      · obtain ⟨rfl, rfl⟩ := Prod.mk.inj heq
        rcases hwhen with ⟨hno, -⟩ | ⟨o, ho⟩
        · exact hno
        · have := hs.chosen_iff.mpr ho
          simp [hnone] at this
      · obtain ⟨-, hlow, -⟩ := hs.chosen_iff.mp ho
        obtain rfl : got = some (h.heap_ptr + o + 16) := hgot
        exact ⟨o, hlow, rfl, ha.carved hs⟩
  · -- the call does not return, and no block has room for the minimum size
    have hdiv := rt_malloc_diverges hh (show n ≠ 0 by omega) (by omega) (by omega)
    constructor
    · rintro ⟨fuel, g, got, hrun, -⟩
      simp [hdiv fuel] at hrun
    · rintro (⟨-, hne⟩ | ⟨o, -, hlow, -⟩)
      · exact absurd ⟨by omega, by omega, by omega⟩ hne
      · obtain ⟨pre, c, post, rfl, -, -, hsize⟩ := hs.fitsAt_iff.mp hlow.1
        have := hs.sum
        omega

end

/-- In a reached state `rt_malloc(n)` is a first fit that finds every block, exactly when no block
fits, or the lowest block that fits is not the last one filled exactly. -/
theorem rt_malloc_first_fit {bytes : Bytes} {begin_addr end_addr : Nat} {w : World}
    (hr : (heapMachine bytes begin_addr end_addr).Reachable w) {n : Nat} (hn : n ≤ 2 ^ 32 - 8) :
    FirstFit w.heap n ↔ FirstFitWhen w.heap n := by
  by_cases hok : regionOk (RT_ALIGN begin_addr RT_ALIGN_SIZE)
      (RT_ALIGN_DOWN end_addr RT_ALIGN_SIZE)
  · obtain ⟨bs, ht, -⟩ := reachable_tracked hok hr
    exact ht.holds.firstFit_iff hn
  · -- without an arena there is no block and nothing is allocated
    obtain rfl := rejected_reachable hok hr
    have hno : ∀ o, ¬FitsAt (boot bytes) (request n) o := by
      rintro o ⟨⟨os, hv, ho⟩, -⟩
      cases os with
      | nil => simp at ho
      | cons p ps => exact absurd hv.2.1 (Nat.not_lt_zero _)
    have hrun : rt_malloc 0 (boot bytes) n = some (boot bytes, none) := boot_call (.malloc n) hn 0
    exact ⟨fun _ => Or.inl ⟨hno, by simp [boot]⟩, fun _ => ⟨0, _, none, hrun, hno⟩⟩

theorem rt_malloc_first_fit_in_fresh_heap :
    FirstFit (rt_system_heap_init (boot fun _ => 0) 0x10000 0x10100) 20 := by
  have hr : (heapMachine (fun _ => 0) 0x10000 0x10100).Reachable
      ⟨rt_system_heap_init (boot fun _ => 0) 0x10000 0x10100, []⟩ := Machine.Reachable.start rfl
  refine (rt_malloc_first_fit hr (by decide)).mpr (Or.inr ⟨0, by decide, ?_, by decide⟩)
  exact ⟨⟨⟨[0], by decide, by simp⟩, by decide, by decide⟩, fun q _ => Nat.zero_le q⟩

/-- `rt_malloc(32)` finds nothing in a heap that is one free block of 32 bytes. -/
theorem rt_malloc_misses_exact_fit :
    ¬FirstFit (rt_system_heap_init (boot fun _ => 0) 0x10000 0x10040) 32 := by
  have hok : regionOk (RT_ALIGN 0x10000 RT_ALIGN_SIZE) (RT_ALIGN_DOWN 0x10040 RT_ALIGN_SIZE) := by
    decide
  obtain ⟨-, b, -, hh⟩ := rt_system_heap_init_spec (fun _ => 0) hok
  have hfit : FitsAt (rt_system_heap_init (boot fun _ => 0) 0x10000 0x10040) (request 32) 0 :=
    ⟨⟨[0], by decide, by simp⟩, by decide, by decide⟩
  rw [hh.firstFit_iff (by decide)]
  rintro (⟨hno, -⟩ | ⟨o, -, hlow, hne⟩)
  · exact hno 0 hfit
  · obtain rfl : o = 0 := Nat.le_zero.mp (hlow.2 0 hfit)
    exact hne (by decide)

end Ab32Vg1.Kernel.Mem
