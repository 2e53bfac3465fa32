import Ab32Vg1.Kernel.MemContents

/-! `rt_malloc_align` and `rt_free_align` of `kservice.c`, and the sizes of what every allocation
function returns when its 32-bit arithmetic wraps. -/

namespace Ab32Vg1.Kernel.Mem

open ProofKit ProofKit.Tiling

/-- A pointer as a word: `RT_NULL` is 0. -/
def pointer (word : Nat) : Option Nat := if word = 0 then none else some word

/-- `uintptr_size`: `sizeof(void*) - 1`. -/
def uintptr_size : Nat := 3

/-- `(x + uintptr_size) & ~uintptr_size` -/
def alignWord (x : Nat) : Nat := add32 x uintptr_size &&& 2 ^ 32 - 1 - uintptr_size

/-- `align_size` -/
def alignSize (size align : Nat) : Nat := add32 (alignWord size) (alignWord align)

/-- `align_ptr` for the block at `ptr`, with `align` already rounded. -/
def alignPtr (ptr align : Nat) : Nat :=
  if ptr &&& sub32 align 1 = 0 then add32 ptr align
  else add32 ptr (sub32 align 1) &&& 2 ^ 32 - 1 - sub32 align 1

def rt_malloc_align (fuel : Nat) (h : Heap) (size align : Nat) : Option (Heap × Option Nat) := do
  let (h, ptr) ← rt_malloc fuel h (alignSize size align)
  match ptr with
  | none => return (h, none)
  | some ptr =>
    let align_ptr := alignPtr ptr (alignWord align)
    -- the pointer before the aligned pointer is set to the real pointer
    let h := { h with bytes := h.bytes.store (sub32 align_ptr 4) 4 ptr }
    return (h, pointer align_ptr)

def rt_free_align (h : Heap) (ptr : Nat) : Option Heap :=
  rt_free h (pointer (h.bytes.load (sub32 ptr 4) 4))

/-! ### The contract -/

/-- The live block at `p` has at least `n` bytes, inside the heap. -/
def Designates (g : Heap) (p n : Nat) : Prop :=
  ∃ o, IsBlock g o ∧ g.used (g.heap_ptr + o) ≠ 0 ∧ p = g.heap_ptr + o + SIZEOF_STRUCT_MEM ∧
    p + n ≤ areaEnd g p ∧ areaEnd g p ≤ g.heap_end

/-- A call of an allocation function. -/
inductive Request where
  | malloc (n : Nat)
  | calloc (count size : Nat)
  | realloc (rmem : Option Nat) (n : Nat)
  | malloc_align (n align : Nat)

/-- Arguments are words, a pointer handed in is live, and an alignment is a power of two. -/
def Request.Valid (w : World) : Request → Prop
  | .malloc n => n < 2 ^ 32
  | .calloc count size => count < 2 ^ 32 ∧ size < 2 ^ 32
  | .realloc rmem n => (∀ p, rmem = some p → p ∈ w.live) ∧ n < 2 ^ 32
  | .malloc_align n align => n < 2 ^ 32 ∧ ∃ k < 32, align = 2 ^ k

/-- A pointer that the call returns designates what was asked for; `rt_free_align` releases exactly the
block under an aligned pointer; `rt_realloc` to a size other than 0 that returns nothing leaves the
block. -/
def SizeKept (w : World) : Request → Prop
  | .malloc n => ∀ fuel g p, rt_malloc fuel w.heap n = some (g, some p) → Designates g p n
  | .calloc count size => ∀ fuel g p, rt_calloc fuel w.heap count size = some (g, some p) →
      Designates g p (count * size)
  | .realloc rmem n =>
    (∀ fuel g q, rt_realloc fuel w.heap rmem n = some (g, some q) → Designates g q n) ∧
      ∀ fuel g p, rmem = some p → n ≠ 0 → rt_realloc fuel w.heap rmem n = some (g, none) →
        Designates g p (areaEnd w.heap p - p) ∧
          ∀ i, p ≤ i → i < areaEnd w.heap p → g.bytes i = w.heap.bytes i
  | .malloc_align n align => ∀ fuel g q, rt_malloc_align fuel w.heap n align = some (g, some q) →
      align ∣ q ∧ ∃ p, p ≤ q ∧ Designates g p (q - p + n) ∧
        (∃ os, HeapInvariant ⟨g, p :: w.live⟩ os) ∧
        ∃ g', rt_free_align g q = some g' ∧ ∃ os, HeapInvariant ⟨g', w.live⟩ os

/-- No size wraps, or nothing is returned for the wrapped size. -/
def Request.InRange (h : Heap) : Request → Prop
  | .malloc n => n ≤ 2 ^ 32 - 8 ∨ ∀ o, ¬Takes h n o
  | .calloc count size => count * size ≤ 2 ^ 32 - 8 ∨ ∀ o, ¬Takes h (count * size % 2 ^ 32) o
  | .realloc rmem n => n ≤ 2 ^ 32 - 8 ∨ rmem = none
  | .malloc_align n align => (n + 3) / 4 * 4 + max align 4 ≤ 2 ^ 32 - 8 ∨
      ∀ o, Takes h (alignSize n align) o → 2 ^ 32 ≤ h.heap_ptr + o + 16 + max align 4

/-! ### Alignment -/

theorem alignWord_of_lt {x : Nat} (hx : x + 3 < 2 ^ 32) : alignWord x = (x + 3) / 4 * 4 := by
  rw [alignWord, show uintptr_size = 3 from rfl, add32_of_lt hx]
  exact land_mask (k := 2) hx (by decide)

/-- An alignment is raised to that of a pointer. -/
theorem alignWord_two_pow {k : Nat} (hk : k < 32) :
    ∃ j, 2 ≤ j ∧ j < 32 ∧ alignWord (2 ^ k) = 2 ^ j ∧ max (2 ^ k) 4 = 2 ^ j ∧ 2 ^ k ∣ 2 ^ j := by
  have hle : 2 ^ k ≤ 2 ^ 31 := Nat.pow_le_pow_right (by decide) (by omega)
  have hword := alignWord_of_lt (show 2 ^ k + 3 < 2 ^ 32 by omega)
  by_cases h2 : k < 2
  · obtain rfl | rfl : k = 0 ∨ k = 1 := by omega
    · exact ⟨2, le_rfl, by decide, hword, rfl, by decide⟩
    · exact ⟨2, le_rfl, by decide, hword, rfl, by decide⟩
  · have h4 : 2 ^ 2 ∣ 2 ^ k := pow_dvd_pow 2 (by omega)
    have hpos : 0 < 2 ^ k := Nat.two_pow_pos k
    exact ⟨k, by omega, hk, by rw [hword]; omega, by omega, dvd_rfl⟩

section AlignPtr

variable {ptr j : Nat}

/-- The aligned pointer lies in the first `2 ^ j` bytes of the block, behind room for a pointer. -/
theorem alignPtr_spec (hj : 2 ≤ j) (hj' : j < 32) (h4 : 4 ∣ ptr) (hfit : ptr + 2 ^ j < 2 ^ 32) :
    2 ^ j ∣ alignPtr ptr (2 ^ j) ∧ ptr + 4 ≤ alignPtr ptr (2 ^ j) ∧
      alignPtr ptr (2 ^ j) ≤ ptr + 2 ^ j := by
  have hpos : 0 < 2 ^ j := Nat.two_pow_pos j
  have hdvd : 4 ∣ 2 ^ j := pow_dvd_pow 2 hj
  have hle4 : 4 ≤ 2 ^ j := Nat.le_of_dvd hpos hdvd
  have hsub : sub32 (2 ^ j) 1 = 2 ^ j - 1 := sub32_of_le (by omega) hpos
  rw [alignPtr, hsub, Nat.and_two_pow_sub_one_eq_mod]
  by_cases hmod : ptr % 2 ^ j = 0
  · rw [if_pos hmod, add32_of_lt hfit]
    exact ⟨Nat.dvd_add (Nat.dvd_of_mod_eq_zero hmod) dvd_rfl, by omega, le_rfl⟩
  · rw [if_neg hmod, add32_of_lt (by omega)]
    rw [land_mask (show ptr + (2 ^ j - 1) < 2 ^ 32 by omega) (by omega)]
    have hdiv := Nat.div_add_mod' (ptr + (2 ^ j - 1)) (2 ^ j)
    have hrest := Nat.mod_lt (ptr + (2 ^ j - 1)) hpos
    have hmul : 2 ^ j ∣ (ptr + (2 ^ j - 1)) / 2 ^ j * 2 ^ j := Dvd.intro_left _ rfl
    have hne : (ptr + (2 ^ j - 1)) / 2 ^ j * 2 ^ j ≠ ptr := fun heq =>
      hmod (Nat.mod_eq_zero_of_dvd (heq ▸ hmul))
    have h4' : 4 ∣ (ptr + (2 ^ j - 1)) / 2 ^ j * 2 ^ j := hdvd.trans hmul
    exact ⟨hmul, by omega, by omega⟩

/-- A pointer that would lie behind the last address wraps to `RT_NULL`. -/
theorem alignPtr_wraps (hj : 2 ≤ j) (hj' : j < 32) (hptr : ptr < 2 ^ 32)
    (hwrap : 2 ^ 32 ≤ ptr + 2 ^ j) : alignPtr ptr (2 ^ j) = 0 := by
  have hpos : 0 < 2 ^ j := Nat.two_pow_pos j
  have hdvd : 2 ^ j ∣ 2 ^ 32 := pow_dvd_pow 2 (by omega)
  have hle : 2 ^ j ≤ 2 ^ 31 := Nat.pow_le_pow_right (by decide) (by omega)
  have hsub : sub32 (2 ^ j) 1 = 2 ^ j - 1 := sub32_of_le (by omega) hpos
  rw [alignPtr, hsub, Nat.and_two_pow_sub_one_eq_mod]
  by_cases hmod : ptr % 2 ^ j = 0
  · -- a multiple that is not below the last one is the last one
    have hlast : 2 ^ 32 ∣ ptr + 2 ^ j := by
      have hsum : 2 ^ j ∣ ptr + 2 ^ j := Nat.dvd_add (Nat.dvd_of_mod_eq_zero hmod) dvd_rfl
      have hdiff : 2 ^ j ∣ ptr + 2 ^ j - 2 ^ 32 := Nat.dvd_sub hsum hdvd
      have hzero : ptr + 2 ^ j - 2 ^ 32 = 0 := Nat.eq_zero_of_dvd_of_lt hdiff (by omega)
      rw [show ptr + 2 ^ j = 2 ^ 32 by omega]
    rw [if_pos hmod, add32]
    exact Nat.mod_eq_zero_of_dvd hlast
  · have hne : ptr ≠ 2 ^ 32 - 2 ^ j := by
      rintro rfl
      exact hmod (Nat.mod_eq_zero_of_dvd (Nat.dvd_sub hdvd dvd_rfl))
    rw [if_neg hmod, add32, show (ptr + (2 ^ j - 1)) % 2 ^ 32 = ptr + (2 ^ j - 1) - 2 ^ 32 by omega,
      land_mask (by omega) (by omega), Nat.div_eq_of_lt (by omega), Nat.zero_mul]

end AlignPtr

/-! ### What each call returns -/

section Calls

variable {h g : Heap} {bs : List Blk} {m n o p fuel : Nat}

theorem Allocated.designates (ha : Allocated h bs m g (h.heap_ptr + o + 16)) (hn : n ≤ m) :
    Designates g (h.heap_ptr + o + 16) n := by
  obtain ⟨hsame, -, pre, c, post, b, tail, rfl, -, hg, ht, hat⟩ := ha
  obtain rfl : o = total pre := by omega
  have hroom := ht.room
  have hs := hg.toShape
  have hsum := hs.sum
  have hend := hs.end_eq
  have hptr := hsame.heap_ptr
  have hnext : g.next (g.heap_ptr + total pre) = total pre + b.size := hs.header.next
  have harea : areaEnd g (h.heap_ptr + total pre + 16) = g.heap_ptr + (total pre + b.size) := by
    rw [areaEnd, SIZEOF_STRUCT_MEM_eq, Nat.add_sub_cancel, ← hptr, hnext]
  refine ⟨total pre, hs.isBlock_iff.mpr ⟨pre, b, tail, rfl, rfl⟩, fun h0 => ?_, ?_, ?_, ?_⟩
  · have := hs.used_iff.mp h0
    simp [ht.used] at this
  · rw [hptr, SIZEOF_STRUCT_MEM_eq]
  · rw [harea]
    omega
  · rw [harea]
    omega

theorem Designates.le_end (hd : Designates g p n) : p + n ≤ g.heap_end := by
  obtain ⟨o, -, -, -, hroom, hend⟩ := hd
  omega

/-- A block that is designated is live. -/
theorem Designates.livePtr (hs : Shape g bs) (hd : Designates g p n) : LivePtr g bs p := by
  obtain ⟨o, hblock, hused, rfl, -⟩ := hd
  obtain ⟨pre, b, post, rfl, rfl⟩ := hs.isBlock_iff.mp hblock
  have hb : b.used = true := by
    cases hb : b.used with
    | true => rfl
    | false => exact absurd (hs.used_iff.mpr hb) hused
  exact ⟨total pre, mem_usedStarts.mpr ⟨b, mem_placed.mpr ⟨pre, post, rfl, by omega⟩, hb⟩, rfl⟩

theorem rt_malloc_some (hh : Holds h bs) (hr : rt_malloc fuel h m = some (g, some p)) :
    ∃ o, Takes h m o ∧ p = h.heap_ptr + o + 16 ∧ Allocated h bs (request m) g p := by
  rcases rt_malloc_post hh hr with ⟨heq, -⟩ | ⟨o, ho, hp, ha⟩
  · simp at heq
  · obtain rfl : p = h.heap_ptr + o + 16 := Option.some.inj hp
    exact ⟨o, hh.toShape.chosen_iff.mp ho, rfl, ha⟩

/-- A block that `rt_malloc` takes is returned. -/
theorem rt_malloc_takes (hh : Holds h bs) (ht : Takes h m o) :
    ∃ fuel g, rt_malloc fuel h m = some (g, some (h.heap_ptr + o + 16)) ∧ SameArena h g := by
  obtain ⟨pre, c, post, hbs, -, -, hsize⟩ := hh.toShape.fitsAt_iff.mp ht.2.1.1
  have hreq := request_bounds m
  have hmem : 16 ≤ h.mem_size_aligned := by
    subst hbs
    have := hh.sum
    omega
  have hspec := @rt_malloc_spec h bs m hh (Or.inr (Or.inr hmem))
  obtain ⟨⟨g, got⟩, hrun⟩ := hspec.total (Nat.lt_succ_self _)
  have hchosen := hh.toShape.chosen_iff.mpr ht
  rcases hspec.post hrun with ⟨-, hnone⟩ | ⟨o', ho', hgot, ha⟩
  · simp [hnone] at hchosen
  · obtain rfl : o' = o := Option.some.inj (ho'.symm.trans hchosen)
    obtain rfl : got = some (h.heap_ptr + o' + 16) := hgot
    exact ⟨_, g, hrun, ha.same⟩

theorem Holds.heap_end_lt (hh : Holds h bs) : h.heap_end + 16 < 2 ^ 32 := by
  have hend := hh.end_eq
  have hfits := hh.fits
  omega

end Calls

section Kept

variable {w : World} {bs : List Blk}

theorem malloc_sizeKept (ht : Tracks w bs) {n : Nat} :
    SizeKept w (.malloc n) ↔ (Request.malloc n).InRange w.heap := by
  have hh := ht.holds
  constructor
  · intro hkept
    refine or_iff_not_imp_left.mpr fun hn o htakes => ?_
    obtain ⟨fuel, g, hrun, -⟩ := rt_malloc_takes hh htakes
    obtain ⟨o', -, -, ha⟩ := rt_malloc_some hh hrun
    have hend := (hkept fuel g _ hrun).le_end
    obtain ⟨-, -, pre, c, post, b, tail, -, -, hg, -⟩ := ha
    have := hg.heap_end_lt
    omega
  · intro hrange fuel g p hrun
    obtain ⟨o, htakes, rfl, ha⟩ := rt_malloc_some hh hrun
    rcases hrange with hn | hno
    · exact ha.designates (le_request hn)
    · exact absurd htakes (hno o)

theorem calloc_sizeKept (ht : Tracks w bs) {count size : Nat} :
    SizeKept w (.calloc count size) ↔ (Request.calloc count size).InRange w.heap := by
  have hh := ht.holds
  constructor
  · intro hkept
    refine or_iff_not_imp_left.mpr fun hn o htakes => ?_
    obtain ⟨fuel, g, hrun, -⟩ := rt_malloc_takes hh htakes
    obtain ⟨o', -, -, ha⟩ := rt_malloc_some hh hrun
    have hcalloc : rt_calloc fuel w.heap count size =
        some (rt_memset g (w.heap.heap_ptr + o + 16) 0 (count * size % 2 ^ 32),
          some (w.heap.heap_ptr + o + 16)) := by
      show (rt_malloc fuel w.heap (count * size % 2 ^ 32)).bind _ = _
      rw [hrun]
      rfl
    have hend : _ ≤ g.heap_end := (hkept fuel _ _ hcalloc).le_end
    obtain ⟨-, -, pre, c, post, b, tail, -, -, hg, -⟩ := ha
    have := hg.heap_end_lt
    omega
  · intro hrange fuel g p hrun
    obtain ⟨⟨g0, got⟩, hmalloc, hrest⟩ := Option.bind_eq_some_iff.mp hrun
    cases got with
    | none => simp at hrest
    | some p0 =>
      obtain ⟨rfl, hp⟩ := Prod.mk.inj (Option.some.inj hrest)
      obtain rfl : p0 = p := Option.some.inj hp
      obtain ⟨o, htakes, rfl, ha⟩ := rt_malloc_some hh hmalloc
      rcases hrange with hn | hno
      · have hmod : count * size % 2 ^ 32 = count * size := Nat.mod_eq_of_lt (by omega)
        rw [hmod] at ha ⊢
        have hle := le_request hn
        exact (ha.userWrite fun lo hi hor => Bytes.fill_agreeOn (by omega)).designates hle
      · exact absurd htakes (hno o)

/-- The live pointers are the user pointers of blocks in use. -/
theorem LivePtr.designates {h : Heap} {p : Nat} (hs : Shape h bs) (hp : LivePtr h bs p) :
    Designates h p (areaEnd h p - p) := by
  obtain ⟨pre, b, post, rfl, hb, rfl, hnext⟩ := hp.block hs
  have hsum := hs.sum
  have hend := hs.end_eq
  have hroom := b.room_le
  have harea : areaEnd h (h.heap_ptr + total pre + 16) = h.heap_ptr + (total pre + b.size) := by
    rw [areaEnd, hnext]
  refine ⟨total pre, hs.isBlock_iff.mpr ⟨pre, b, post, rfl, rfl⟩, fun h0 => ?_, ?_, ?_, ?_⟩
  · have := hs.used_iff.mp h0
    simp [hb] at this
  · rw [SIZEOF_STRUCT_MEM_eq]
  · rw [harea]
    omega
  · rw [harea]
    omega

theorem realloc_sizeKept (ht : Tracks w bs) (h8 : w.live ≠ [] → w.heap.mem_size_aligned ≠ 8)
    {rmem : Option Nat} {n : Nat} (hv : (Request.realloc rmem n).Valid w) :
    SizeKept w (.realloc rmem n) ↔ (Request.realloc rmem n).InRange w.heap := by
  have hh := ht.holds
  obtain ⟨hlive, hlt⟩ := hv
  cases rmem with
  | none =>
    -- without a block the call is that of `rt_malloc`, or nothing
    refine ⟨fun _ => Or.inr rfl, fun _ => ⟨fun fuel g q hrun => ?_, fun _ _ _ hnone => by simp at hnone⟩⟩
    rw [rt_realloc, RT_ALIGN_SIZE_eq] at hrun
    split at hrun
    · simp at hrun
    · split at hrun
      · simp [rt_free] at hrun
      · have hn : n ≤ 2 ^ 32 - 8 := by
          by_contra hn
          exact absurd (RT_ALIGN_wraps hn hlt) (by assumption)
        have hal := RT_ALIGN_eight hn
        obtain ⟨o, -, rfl, ha⟩ := rt_malloc_some hh hrun
        have hle := le_request (show RT_ALIGN n 8 ≤ 2 ^ 32 - 8 by omega)
        exact ha.designates (by omega)
  | some p =>
    have hp := hlive p rfl
    have hlp := (ht.live_iff p).mp hp
    have hne : w.live ≠ [] := List.ne_nil_of_mem hp
    constructor
    · intro hkept
      refine Or.inl (by_contra fun hn => ?_)
      -- the wrapped size frees the block
      obtain ⟨h', hfree, heff⟩ := rt_free_effect hh hlp
      have hrun : rt_realloc 0 w.heap (some p) n = some (h', none) := by
        rw [rt_realloc, RT_ALIGN_SIZE_eq, RT_ALIGN_wraps hn hlt, if_neg (Nat.not_lt_zero _), if_pos rfl,
          hfree]
        rfl
      obtain ⟨hdes, -⟩ := hkept.2 0 h' p rfl (by omega) hrun
      obtain ⟨bs', hh', hiff⟩ := heff.blocks
      have hdead := (hiff p).mp (hdes.livePtr hh'.toShape)
      simp at hdead
    · rintro (hn | hnone)
      · have hspec := rt_realloc_spec hh hn (h8 hne) hlp
        refine ⟨fun fuel g q hrun => ?_, fun fuel g p' hp' hz hrun => ?_⟩
        · cases hspec.post hrun with
          | resized hz hr =>
            obtain ⟨bs', hh', hiff⟩ := hr.effect.blocks
            have hq : LivePtr g bs' q := (hiff q).mpr (Or.inr rfl)
            obtain ⟨o, hblock, hused, hat, -, hend⟩ := hq.designates hh'.toShape
            exact ⟨o, hblock, hused, hat, hr.room, hend⟩
        · obtain rfl : p = p' := Option.some.inj hp'
          cases hspec.post hrun with
          | refused hz => exact ⟨hlp.designates hh.toShape, fun _ _ _ => rfl⟩
          | freed hzero => exact absurd hzero hz
      · simp at hnone

theorem rt_malloc_align_eq {h g : Heap} {fuel n align p : Nat}
    (hrun : rt_malloc fuel h (alignSize n align) = some (g, some p)) :
    rt_malloc_align fuel h n align =
      some ({ g with bytes := g.bytes.store (sub32 (alignPtr p (alignWord align)) 4) 4 p },
        pointer (alignPtr p (alignWord align))) := by
  show (rt_malloc fuel h (alignSize n align)).bind _ = _
  rw [hrun]
  rfl

/-- An aligned pointer comes from a block of `rt_malloc`. -/
theorem rt_malloc_align_some {h g : Heap} {fuel n align q : Nat}
    (hrun : rt_malloc_align fuel h n align = some (g, some q)) :
    ∃ g0 p, rt_malloc fuel h (alignSize n align) = some (g0, some p) ∧
      g = { g0 with bytes := g0.bytes.store (sub32 q 4) 4 p } ∧
      q = alignPtr p (alignWord align) ∧ q ≠ 0 := by
  obtain ⟨⟨g0, got⟩, hmalloc, hrest⟩ := Option.bind_eq_some_iff.mp hrun
  cases got with
  | none => simp at hrest
  | some p =>
    obtain ⟨hg, hq⟩ := Prod.mk.inj (Option.some.inj hrest)
    have hne : alignPtr p (alignWord align) ≠ 0 := by
      intro h0
      simp [pointer, h0] at hq
    rw [pointer, if_neg hne] at hq
    obtain rfl := Option.some.inj hq
    exact ⟨g0, p, hmalloc, hg.symm, rfl, hne⟩

/-- Freeing a block right after it was allocated restores the live pointers. -/
theorem settle_new {live : List Nat} {p : Nat} (hp : p ∉ live) :
    settle (settle live none (some p)) (some p) none = live := by
  have hlive : live.filter (fun x => some x ≠ none) = live := by simp
  have hne : live.filter (fun x => some x ≠ some p) = live := by
    refine List.filter_eq_self.mpr fun x hx => ?_
    simpa using fun heq : x = p => hp (heq ▸ hx)
  simp only [settle, hlive, Option.toList_some, Option.toList_none, List.nil_append,
    List.singleton_append]
  rw [List.filter_cons_of_neg (by simp), hne]

theorem malloc_align_sizeKept (ht : Tracks w bs) {n align : Nat}
    (hv : (Request.malloc_align n align).Valid w) :
    SizeKept w (.malloc_align n align) ↔ (Request.malloc_align n align).InRange w.heap := by
  have hh := ht.holds
  have hheap := hh.heap_end_lt
  obtain ⟨hn, k, hk, rfl⟩ := hv
  obtain ⟨j, hj, hj', hword, hmax, hdvd⟩ := alignWord_two_pow hk
  have h4 : 4 ∣ 2 ^ j := pow_dvd_pow 2 hj
  have hpos : 0 < 2 ^ j := Nat.two_pow_pos j
  have hblock8 : ∀ o, Takes w.heap (alignSize n (2 ^ k)) o → 4 ∣ w.heap.heap_ptr + o + 16 := by
    intro o htakes
    obtain ⟨pre, c, post, rfl, rfl, -⟩ := hh.toShape.fitsAt_iff.mp htakes.2.1.1
    have := hh.align
    have := align_dvd_total pre
    omega
  constructor
  · intro hkept
    refine or_iff_not_imp_left.mpr fun hbig o htakes => ?_
    rw [hmax] at hbig ⊢
    by_contra hfit
    obtain ⟨fuel, g, hrun, hsame⟩ := rt_malloc_takes hh htakes
    obtain ⟨o', -, -, ha⟩ := rt_malloc_some hh hrun
    obtain ⟨hdiv, hlo, hhi⟩ := alignPtr_spec hj hj' (hblock8 o htakes) (by omega)
    have halign := rt_malloc_align_eq hrun
    rw [hword, pointer, if_neg (by omega)] at halign
    obtain ⟨-, p, hle, hdes, -⟩ := hkept fuel _ _ halign
    -- the pointer is a multiple of the alignment, so `n` bytes behind it leave the heap
    have hq : 2 ^ j ≤ alignPtr (w.heap.heap_ptr + o + 16) (2 ^ j) := Nat.le_of_dvd (by omega) hdiv
    have hend : p + _ ≤ g.heap_end := hdes.le_end
    obtain ⟨-, -, pre, c, post, b, tail, -, -, hg, -⟩ := ha
    have := hg.heap_end_lt
    omega
  · intro hrange fuel g q hrun
    obtain ⟨g0, p, hmalloc, rfl, hq, hq0⟩ := rt_malloc_align_some hrun
    rw [hword] at hq
    obtain ⟨o, htakes, hp, ha⟩ := rt_malloc_some hh hmalloc
    have hp4 : 4 ∣ p := hp ▸ hblock8 o htakes
    have hdes0 : Designates g0 p (request (alignSize n (2 ^ k))) := by
      rw [hp] at ha ⊢
      exact ha.designates (Nat.le_refl _)
    have hg0 : g0.heap_end + 16 < 2 ^ 32 := by
      obtain ⟨-, -, pre, c, post, b, tail, -, -, hg, -⟩ := ha
      exact hg.heap_end_lt
    have hend := hdes0.le_end
    rcases hrange with hsmall | hwrap
    · -- nothing wraps: the pointer and `n` bytes behind it lie in the block
      rw [hmax] at hsmall
      have hsize : alignSize n (2 ^ k) = (n + 3) / 4 * 4 + 2 ^ j := by
        rw [alignSize, hword, alignWord_of_lt (by omega)]
        exact add32_of_lt (by omega)
      have hreq := le_request (show alignSize n (2 ^ k) ≤ 2 ^ 32 - 8 by omega)
      obtain ⟨hdiv, hlo, hhi⟩ := alignPtr_spec hj hj' hp4 (by omega)
      rw [← hq] at hdiv hlo hhi
      have hsub : sub32 q 4 = q - 4 := sub32_of_le (by omega) (by omega)
      rw [hsub]
      have hdone : Allocated w.heap bs (request (alignSize n (2 ^ k)))
          { g0 with bytes := g0.bytes.store (q - 4) 4 p } p :=
        ha.userWrite fun lo hi hor => Bytes.store_agreeOn (by omega)
      have hdes : Designates { g0 with bytes := g0.bytes.store (q - 4) 4 p } p (q - p + n) := by
        rw [hp] at hdone ⊢
        exact hdone.designates (by omega)
      have heff := hdone.effect
      have htracks : ∃ bs', Tracks ⟨{ g0 with bytes := g0.bytes.store (q - 4) 4 p },
          settle w.live none (some p)⟩ bs' := Effect.tracks ht heff rfl
      obtain ⟨bs', ht'⟩ := htracks
      have hpl : p ∉ w.live := by
        intro hmem
        exact absurd (heff.fresh p rfl ((ht.live_iff p).mp hmem)) (by simp)
      have hcons : settle w.live none (some p) = p :: w.live := by simp [settle]
      obtain ⟨g', hfree, heff'⟩ := rt_free_effect ht'.holds (hdes.livePtr ht'.holds.toShape)
      have htracks' : ∃ bs'', Tracks ⟨g', settle (settle w.live none (some p)) (some p) none⟩ bs'' :=
        Effect.tracks ht' heff' rfl
      obtain ⟨bs'', ht''⟩ := htracks'
      rw [settle_new hpl] at ht''
      refine ⟨hdvd.trans hdiv, p, by omega, hdes, ⟨_, hcons ▸ ht'.heapInvariant⟩, g', ?_,
        _, ht''.heapInvariant⟩
      have hload : (g0.bytes.store (q - 4) 4 p).load (q - 4) 4 = p :=
        Bytes.load_store_of_lt (by omega)
      rw [rt_free_align, hsub, hload, pointer, if_neg (by omega)]
      exact hfree
    · have := hwrap o htakes
      rw [hmax, ← hp] at this
      exact absurd (hq.trans (alignPtr_wraps hj hj' (by omega) this)) hq0

end Kept

/-- In a reached state of an accepted heap a call keeps its size exactly when its 32-bit arithmetic
does not wrap, or nothing is returned for the wrapped size. -/
theorem allocation_sizes {bytes : Bytes} {begin_addr end_addr : Nat} {w : World}
    (hok : regionOk (RT_ALIGN begin_addr RT_ALIGN_SIZE) (RT_ALIGN_DOWN end_addr RT_ALIGN_SIZE))
    (hr : (heapMachine bytes begin_addr end_addr).Reachable w) {r : Request} (hv : r.Valid w) :
    SizeKept w r ↔ r.InRange w.heap := by
  obtain ⟨bs, ht, hmem⟩ := reachable_tracked hok hr
  cases r with
  | malloc n => exact malloc_sizeKept ht
  | calloc count size => exact calloc_sizeKept ht
  | realloc rmem n =>
    exact realloc_sizeKept ht (fun hne h8 => hne (hmem (by omega))) hv
  | malloc_align n align => exact malloc_align_sizeKept ht hv

theorem allocation_sizes_of_aligned_block :
    SizeKept ⟨rt_system_heap_init (boot fun _ => 0) 0x10000 0x10100, []⟩ (.malloc_align 20 32) := by
  have hr : (heapMachine (fun _ => 0) 0x10000 0x10100).Reachable
      ⟨rt_system_heap_init (boot fun _ => 0) 0x10000 0x10100, []⟩ := Machine.Reachable.start rfl
  have hv : Request.Valid ⟨rt_system_heap_init (boot fun _ => 0) 0x10000 0x10100, []⟩
      (.malloc_align 20 32) := ⟨by decide, 5, by decide, rfl⟩
  exact (allocation_sizes (by decide) hr hv).mpr (Or.inl (by decide))

/-- `rt_malloc(0xffffffff)` returns a block of 16 bytes. -/
theorem allocation_sizes_wrap :
    ¬SizeKept ⟨rt_system_heap_init (boot fun _ => 0) 0x10000 0x10100, []⟩ (.malloc 0xffffffff) := by
  have hok : regionOk (RT_ALIGN 0x10000 RT_ALIGN_SIZE) (RT_ALIGN_DOWN 0x10100 RT_ALIGN_SIZE) := by
    decide
  obtain ⟨-, b, hb, hh⟩ := rt_system_heap_init_spec (fun _ => 0) hok
  have ht : Tracks ⟨rt_system_heap_init (boot fun _ => 0) 0x10000 0x10100, []⟩ [b] :=
    ⟨hh, fun p => by simp [LivePtr, usedStarts, hb], List.nodup_nil⟩
  have htakes : Takes (rt_system_heap_init (boot fun _ => 0) 0x10000 0x10100) 0xffffffff 0 :=
    ⟨by decide, ⟨⟨⟨[0], by decide, by simp⟩, by decide, by decide⟩, fun q _ => Nat.zero_le q⟩,
      by decide⟩
  rw [malloc_sizeKept ht]
  rintro (hn | hno)
  · exact absurd hn (by decide)
  · exact hno 0 htakes

end Ab32Vg1.Kernel.Mem
