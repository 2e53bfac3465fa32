import Ab32Vg1.Kernel.MemheapOps

/-! What every call of a memory heap does to the blocks in use, reallocation included. -/

namespace Ab32Vg1.Kernel.Memheap

open ProofKit ProofKit.Tiling

/-- The pointer of a block in use. -/
def LivePtr (h : MemHeap) (bs : List Blk) (p : Nat) : Prop :=
  ∃ x, MarkedAt true h.start_addr bs x ∧ p = x + 24

/-- A call gave up the pointer `dead` and returned `got`.  If `even`, no block was cut at a size that
is not a multiple of 8. -/
structure Effect (h : MemHeap) (bs : List Blk) (even : Prop) (dead got : Option Nat) (h' : MemHeap) :
    Prop where
  same : SamePool h h'
  blocks : ∃ bs' fl', Holds h' bs' fl' ∧
    (∀ x, MarkedAt true h.start_addr bs' x ↔
      MarkedAt true h.start_addr bs x ∧ some (x + 24) ≠ dead ∨ got = some (x + 24)) ∧
    (even → (∀ b ∈ bs, 8 ∣ b.size) → ∀ b ∈ bs', 8 ∣ b.size)
  fresh : ∀ p, got = some p → 24 ≤ p ∧ (LivePtr h bs p → dead = some p)

/-- The first item of the free list with room for `size` bytes is `x`. -/
def FirstRoom (h : MemHeap) (size x : Nat) : Prop :=
  ∃ l1 l2, Chained (h.get .next_free) (h.get .prev_free) h.free_list (l1 ++ x :: l2) h.free_list ∧
    h.free_list ∉ l1 ++ x :: l2 ∧ (∀ y ∈ l1, MEMITEM_SIZE h y < size) ∧ size ≤ MEMITEM_SIZE h x

/-- `rt_memheap_alloc(size)` cuts no block at 12 bytes. -/
def EvenAlloc (h : MemHeap) (size : Nat) : Prop :=
  alignedSize size = 12 → ∀ x, FirstRoom h 12 x → MEMITEM_SIZE h x < 48

/-- `rt_memheap_realloc(ptr, newsize)` cuts no block at 12 bytes. -/
def EvenRealloc (h : MemHeap) (ptr : Option Nat) (newsize : Nat) : Prop :=
  newsize ≠ 0 → alignedSize newsize = 12 → ∀ p, ptr = some p →
    MEMITEM_SIZE h (p - RT_MEMHEAP_SIZE) ≤ 48

/-- The sum that `rt_memheap_realloc(ptr, newsize)` compares with the room behind the block does not
wrap, or there is no free block behind it. -/
def InRange (h : MemHeap) (ptr : Option Nat) (newsize : Nat) : Prop :=
  2 ^ 32 - 16 < newsize → newsize ≤ 2 ^ 32 - 8 → ∀ p, ptr = some p →
    RT_MEMHEAP_IS_USED h (h.get .next (p - RT_MEMHEAP_SIZE))

section

variable {h h' : MemHeap} {bs pre post tail : List Blk} {b c d e : Blk} {fl : List Nat}
  {o p q x size newsize : Nat} {even even' : Prop} {dead got : Option Nat}

theorem Effect.nothing (hh : Holds h bs fl) : Effect h bs even none none h :=
  ⟨SamePool.refl h, ⟨bs, fl, hh, fun x => by simp, fun _ h8 => h8⟩, by simp⟩

theorem Effect.mono (he : Effect h bs even dead got h') (hle : even' → even) :
    Effect h bs even' dead got h' := by
  obtain ⟨hsame, ⟨bs', fl', hh, hlive, heven⟩, hfresh⟩ := he
  exact ⟨hsame, ⟨bs', fl', hh, hlive, fun h => heven (hle h)⟩, hfresh⟩

/-- A live pointer keeps its block. -/
theorem Effect.same_ptr (hsame : SamePool h h') {bs' : List Blk} {fl' : List Nat}
    (hh : Holds h' bs' fl') (hp : LivePtr h bs p)
    (hlive : ∀ x, MarkedAt true h.start_addr bs' x ↔ MarkedAt true h.start_addr bs x)
    (heven : even → (∀ b ∈ bs, 8 ∣ b.size) → ∀ b ∈ bs', 8 ∣ b.size) :
    Effect h bs even (some p) (some p) h' := by
  obtain ⟨y, hy, rfl⟩ := hp
  refine ⟨hsame, ⟨bs', fl', hh, fun x => ?_, heven⟩, fun q hq => ⟨?_, fun _ => hq⟩⟩
  · rw [hlive]
    constructor
    · intro hx
      by_cases hxy : x = y
      · exact Or.inr (by rw [hxy])
      · exact Or.inl ⟨hx, by simpa using hxy⟩
    · rintro (⟨hx, -⟩ | hx)
      · exact hx
      · obtain rfl : y = x := by simpa using hx
        exact hy
  · have := Option.some.inj hq
    omega

theorem Holds.live_cut (hh : Holds h bs fl) (hp : LivePtr h bs p) :
    ∃ pre b post, bs = pre ++ b :: post ∧ b.used = true ∧ p = h.start_addr + total pre + 24 := by
  obtain ⟨x, ⟨b, hb, hbu⟩, rfl⟩ := hp
  obtain ⟨pre, post, rfl, rfl⟩ := mem_placed.mp hb
  exact ⟨pre, b, post, rfl, hbu, rfl⟩

/-! ### Allocation and release -/

/-- What is given out joins the blocks in use. -/
theorem Cut.live_iff (hcut : Cut b post size c tail) (hb : b.used = false) (o z : Nat) :
    MarkedAt true o (pre ++ c :: tail) z ↔
      MarkedAt true o (pre ++ b :: post) z ∨ o + total pre = z := by
  cases hcut with
  | @part c d hc hd hcs hbs hroom =>
    rw [markedAt_cut, markedAt_cut, markedAt_cons, Nat.add_assoc _ c.size, ← hbs]
    simp only [hb, hc, hd]
    grind
  | whole hfit hrest =>
    rw [markedAt_cut, markedAt_cut]
    simp only [hb, Block.mark_used, Block.mark_size]
    grind

theorem Cut.grain (hcut : Cut b post size c tail) (hs : 8 ∣ size ∨ b.size < size + 60)
    (h8 : ∀ y ∈ pre ++ b :: post, 8 ∣ y.size) : ∀ y ∈ pre ++ c :: tail, 8 ∣ y.size := by
  cases hcut with
  | @part c d hc hd hcs hbs hroom =>
    have h8s : 8 ∣ size := hs.resolve_right (by omega)
    simp only [List.forall_mem_append, List.forall_mem_cons] at h8 ⊢
    exact ⟨h8.1, by omega, by omega, h8.2.2⟩
  | whole hfit hrest =>
    simpa only [List.forall_mem_append, List.forall_mem_cons, Block.mark_size] using h8

theorem Cut.room (hcut : Cut b post size c tail) : size + 24 ≤ c.size := by
  cases hcut with
  | part hc hd hcs hbs hroom => omega
  | whole hfit hrest => exact hfit

/-- A free block has no live pointer. -/
theorem free_not_live (hb : b.used = false) (o : Nat) :
    ¬MarkedAt true o (pre ++ b :: post) (o + total pre) := by
  have h1 : MarkedAt true o pre (o + total pre) → _ := fun hz => hz.le
  have h2 : MarkedAt true (o + total pre + b.size) post (o + total pre) → _ := fun hz => hz.le
  have hbr := b.room_le
  rw [markedAt_cut]
  simp only [hb]
  grind

theorem Allocated.effect (hh : Holds h bs fl) (ha : Allocated h bs fl size h' p) :
    Effect h bs (8 ∣ size ∨ ∀ x, FirstRoom h size x → MEMITEM_SIZE h x < size + 36) none (some p)
      h' := by
  obtain ⟨hsame, pre, b, post, c, tail, f1, f2, fl', rfl, hb, rfl, hall, rfl, hcut, hh'⟩ := ha
  have hsize := hh.memitem_size
  have hroom := b.room_le
  refine ⟨hsame, ⟨_, _, hh', fun x => ?_, fun heven => hcut.grain (heven.imp id fun hno => ?_)⟩,
    fun q hq => ⟨?_, fun hlive => ?_⟩⟩
  · rw [hcut.live_iff hb]
    simp
  · by_contra hle
    have := hno (h.start_addr + total pre) ⟨f1, f2, hh.free, hh.header_not_mem, hall, by omega⟩
    omega
  · have := Option.some.inj hq
    omega
  · obtain ⟨y, hy, rfl⟩ := hlive
    obtain rfl : h.start_addr + total pre = y := by simpa using hq
    exact absurd hy (free_not_live hb _)

theorem alignedSize_eight (h8 : 8 ∣ size) (hmin : 12 ≤ size) (hlt : size < 2 ^ 32) :
    alignedSize size = size := by
  have hal : RT_ALIGN size 8 = (size + 7) / 8 * 8 := RT_ALIGN_eight (by omega)
  rw [alignedSize_eq, hal, if_neg (by omega)]
  omega

/-- Rounding a rounded size gives a multiple of 8. -/
theorem alignedSize_twice (size : Nat) : 8 ∣ alignedSize (alignedSize size) := by
  obtain ⟨hmin, -, hlt, h12 | h8⟩ := alignedSize_bounds size
  · rw [h12]
    decide
  · rwa [alignedSize_eight h8 hmin hlt]

theorem rt_memheap_alloc_returns (hh : Holds h bs fl) (size : Nat) :
    Returns (fun k => rt_memheap_alloc k h size) (fl.length + 1) fun r =>
      Effect h bs (8 ∣ alignedSize size ∨ EvenAlloc h size) none r.2 r.1 ∧ (r.2 = none → r.1 = h) := by
  refine (rt_memheap_alloc_spec hh size).weaken fun r hr => ?_
  rcases hr with ⟨rfl, -⟩ | ⟨p, hp, ha⟩
  · exact ⟨Effect.nothing hh, fun _ => rfl⟩
  · rw [hp]
    refine ⟨(ha.effect hh).mono ?_, fun hc => by cases hc⟩
    rintro (h8 | heven)
    · exact Or.inl h8
    · obtain ⟨-, -, -, h12 | h8⟩ := alignedSize_bounds size
      · rw [h12]
        exact Or.inr (heven h12)
      · exact Or.inl h8

theorem rt_memheap_free_effect (even : Prop) (hh : Holds h bs fl) (hp : LivePtr h bs p) :
    ∃ h', rt_memheap_free h (some p) = some h' ∧ Effect h bs even (some p) none h' := by
  obtain ⟨pre, b, post, rfl, hb, rfl⟩ := hh.live_cut hp
  obtain ⟨h', hrun, hsame, bs', fl', hh', hlive, hgrain⟩ := rt_memheap_free_spec hh hb
  refine ⟨h', hrun, hsame, ⟨bs', fl', hh', fun x => ?_, fun _ => hgrain 8⟩, by simp⟩
  rw [hlive]
  simp

/-! ### Writes to payloads -/

/-- A payload in use holds no item. -/
theorem Holds.payload_free (hh : Holds h bs fl) {y : Nat} (hb : (x, b) ∈ placed h.start_addr bs)
    (hy : Node h.free_list h.start_addr bs y) : y + 24 ≤ x + 24 ∨ x + b.size ≤ y := by
  have hplaced := placed_le hb
  have hroom := b.room_le
  have hout := hh.outside
  rcases hy with rfl | rfl | hy
  · omega
  · omega
  · obtain ⟨⟨y, e⟩, he, rfl⟩ := List.mem_map.mp hy
    have her := e.room_le
    by_cases hxy : y = x
    · exact Or.inl (by dsimp only; omega)
    · have := placed_disjoint he hb hxy
      dsimp only
      omega

/-- Writes to the payloads in use leave the heap's structure alone. -/
theorem Holds.store {words : Words} (hh : Holds h bs fl)
    (hw : ∀ a, words a ≠ h.words a → ∃ x b, (x, b) ∈ placed h.start_addr bs ∧ x + 24 ≤ a ∧
      a < x + b.size) : Holds { h with words } bs fl := by
  have hget : ∀ g y, Node h.free_list h.start_addr bs y →
      MemHeap.get { h with words } g y = h.get g y := by
    intro g y hy
    by_contra hne
    obtain ⟨x, b, hb, hlo, hhi⟩ := hw (y + g.offset) hne
    have hoff : g.offset < 24 := by cases g <;> decide
    have := hh.payload_free hb hy
    omega
  have hsame : SamePool h { h with words } := ⟨rfl, rfl, rfl, rfl⟩
  exact ⟨hh.toShape.relist hsame (fun g y _ _ hy => hget g y hy)
    (hh.toShape.free_congr fun g y _ hy => hget g y hy) hh.fl_nodup hh.fl_sub,
    hh.pool_eq, hh.listed, hh.available_eq, hh.coalesced, hh.used_room⟩

/-! ### Reallocation -/

/-- The end of `rt_memheap_realloc` when the block cannot grow where it is. -/
def reallocate (fuel : Nat) (h : MemHeap) (ptr oldsize newsize : Nat) :
    Option (MemHeap × Option Nat) := do
  let (h, new_ptr) ← rt_memheap_alloc fuel h newsize
  match new_ptr with
  | none => return (h, none)
  | some new_ptr =>
    let h := rt_memcpy h new_ptr ptr (if oldsize < newsize then oldsize else newsize)
    let h ← rt_memheap_free h (some ptr)
    return (h, some new_ptr)

/-- The copy stays in the payload that was given out. -/
theorem Holds.copy {n : Nat} (hh1 : Holds h' (pre ++ c :: tail) fl)
    (hroom : n + 24 ≤ c.size) :
    Holds (rt_memcpy h' (h'.start_addr + total pre + 24) p n) (pre ++ c :: tail) fl := by
  refine hh1.store fun a ha => ⟨h'.start_addr + total pre, c, mem_placed.mpr ⟨pre, tail, rfl, rfl⟩, ?_⟩
  by_contra hout
  exact ha (Words.copy_outside (by omega))

theorem reallocate_returns (even : Prop) (hh : Holds h bs fl) (hp : LivePtr h bs p) {oldsize : Nat}
    (hlt : oldsize < newsize) (h8 : 8 ∣ newsize) (hmin : 12 ≤ newsize) (hmax : newsize < 2 ^ 32) :
    Returns (fun k => reallocate k h p oldsize newsize) (fl.length + 1) fun r =>
      Effect h bs even (if r.2.isSome then some p else none) r.2 r.1 := by
  have hal := alignedSize_eight h8 hmin hmax
  unfold reallocate
  refine Returns.bind (rt_memheap_alloc_spec hh newsize) ?_
  rintro ⟨h1, got⟩ hr
  dsimp only
  rcases hr with ⟨heq, -⟩ | ⟨q, hq, ha⟩
  · obtain ⟨rfl, rfl⟩ := Prod.mk.inj heq
    exact Returns.const (Effect.nothing hh)
  · obtain rfl : got = some q := hq
    rw [hal] at ha
    obtain ⟨hsame, pre, b, post, c, tail, f1, f2, fl', rfl, hb, rfl, -, rfl, hcut, hh1⟩ := ha
    obtain ⟨x, hx, rfl⟩ := hp
    have hcroom := hcut.room
    have hcopy : Holds (rt_memcpy h1 (h.start_addr + total pre + 24) (x + 24)
        (if oldsize < newsize then oldsize else newsize)) (pre ++ c :: tail) fl' := by
      rw [if_pos hlt, ← hsame.start_addr]
      exact hh1.copy (by omega)
    have hlive : LivePtr (rt_memcpy h1 (h.start_addr + total pre + 24) (x + 24)
        (if oldsize < newsize then oldsize else newsize)) (pre ++ c :: tail) (x + 24) := by
      refine ⟨x, ?_, rfl⟩
      rw [show (rt_memcpy h1 _ _ _).start_addr = h1.start_addr from rfl, hsame.start_addr,
        hcut.live_iff hb]
      exact Or.inl hx
    obtain ⟨h2, hrun, hsame2, ⟨bs2, fl2, hh2, hlive2, hgrain2⟩, -⟩ :=
      rt_memheap_free_effect True hcopy hlive
    dsimp only
    rw [hrun]
    have hsame' : SamePool h h2 :=
      (hsame.trans (⟨rfl, rfl, rfl, rfl⟩ : SamePool h1 (rt_memcpy h1 _ _ _))).trans hsame2
    refine Returns.const ⟨hsame', ⟨bs2, fl2, hh2, fun z => ?_, fun _ hg => ?_⟩,
      fun y hy => ⟨?_, fun hlive => ?_⟩⟩
    · rw [show (rt_memcpy h1 _ _ _).start_addr = h1.start_addr from rfl, hsame.start_addr] at hlive2
      rw [hlive2, hcut.live_iff hb]
      have hfresh := @free_not_live pre post b hb h.start_addr
      simp only [Option.isSome_some, if_true, ne_eq, Option.some.injEq, reduceCtorEq, or_false]
      grind
    · exact hgrain2 trivial (hcut.grain (Or.inl h8) hg)
    · have := Option.some.inj hy
      omega
    · obtain ⟨w, hw, rfl⟩ := hlive
      obtain rfl : h.start_addr + total pre = w := by simpa using hy
      exact absurd hw (free_not_live hb _)

/-- Only the largest rounded size wraps when the minimum allocation is added. -/
theorem alignedSize_add (hlt : newsize < 2 ^ 32) :
    alignedSize newsize + 12 < 2 ^ 32 ∨ 2 ^ 32 - 16 < newsize ∧ newsize ≤ 2 ^ 32 - 8 := by
  by_cases hbig : newsize ≤ 2 ^ 32 - 8
  · have hal : RT_ALIGN newsize 8 = (newsize + 7) / 8 * 8 := RT_ALIGN_eight hbig
    rw [alignedSize_eq, hal]
    split <;> omega
  · have hal : RT_ALIGN newsize 8 = 0 := by
      have hdvd := RT_ALIGN_eight_dvd newsize
      have hle : RT_ALIGN newsize 8 ≤ (newsize + 7) % 2 ^ 32 := Nat.and_le_left
      omega
    rw [alignedSize_eq, hal]
    exact Or.inl (by decide)

theorem rt_memheap_realloc_eq (fuel : Nat) (h : MemHeap) (hz : newsize ≠ 0) :
    rt_memheap_realloc fuel h (some p) newsize =
      let header_ptr := p - RT_MEMHEAP_SIZE
      let oldsize := MEMITEM_SIZE h header_ptr
      let newsize := alignedSize newsize
      if oldsize < newsize then do
        let next_ptr := h.get .next header_ptr
        RT_ASSERT (header_ptr < next_ptr)
        if ¬RT_MEMHEAP_IS_USED h next_ptr ∧
            add32 newsize RT_MEMHEAP_MINIALLOC < add32 (MEMITEM_SIZE h next_ptr) oldsize then
          return (expand h header_ptr oldsize newsize, some p)
        else reallocate fuel h p oldsize newsize
      else if oldsize ≤ add32 (add32 newsize RT_MEMHEAP_SIZE) RT_MEMHEAP_MINIALLOC then
        some (h, some p)
      else some (shrink h header_ptr newsize, some p) := by
  rw [rt_memheap_realloc, if_neg hz]
  rfl

/-- A block in use that grows into the free block behind it. -/
theorem expand_effect (hh : Holds h (pre ++ b :: d :: post) fl) (hb : b.used = true)
    (hd : d.used = false) (hlt : b.size < newsize + 24) (h4 : 4 ∣ newsize)
    (hfit : newsize + 12 < d.size - 24 + (b.size - 24)) (heven : even → 8 ∣ newsize) :
    Effect h (pre ++ b :: d :: post) even (some (h.start_addr + total pre + 24))
      (some (h.start_addr + total pre + 24)) (expand h (h.start_addr + total pre) (b.size - 24) newsize) := by
  have hbr := b.room_le
  have hdr := d.room_le
  have hb4 := b.align_dvd
  have hd4 := d.align_dvd
  obtain ⟨fl', hholds⟩ := expand_holds (c := ⟨newsize + 24, true, by omega, by omega⟩)
    (e := ⟨b.size + d.size - (newsize + 24), false, by omega, by omega⟩)
    hh hb hd rfl rfl rfl (by dsimp only; omega) hlt
  refine Effect.same_ptr ⟨rfl, rfl, rfl, rfl⟩ hholds
    ⟨_, markedAt_cut.mpr (Or.inr (Or.inl ⟨rfl, hb⟩)), rfl⟩ (fun x => ?_) fun he h8 => ?_
  · rw [markedAt_cut, markedAt_cut, markedAt_cons, markedAt_cons]
    dsimp only
    rw [show h.start_addr + total pre + (newsize + 24) + (b.size + d.size - (newsize + 24)) =
      h.start_addr + total pre + b.size + d.size by omega]
    simp [hb, hd]
  · have h8n := heven he
    simp only [List.forall_mem_append, List.forall_mem_cons] at h8 ⊢
    exact ⟨h8.1, by omega, by omega, h8.2.2.2⟩

/-- A block in use that gives its tail back. -/
theorem shrink_effect (hh : Holds h (pre ++ b :: post) fl) (hb : b.used = true)
    (hlt : newsize + 60 < b.size) (hmin : 12 ≤ newsize) (h4 : 4 ∣ newsize)
    (heven : even → 8 ∣ newsize) :
    Effect h (pre ++ b :: post) even (some (h.start_addr + total pre + 24))
      (some (h.start_addr + total pre + 24)) (shrink h (h.start_addr + total pre) newsize) := by
  have hbr := b.room_le
  have hb4 := b.align_dvd
  obtain ⟨hsame, e, tail, fl', he, hholds, hj⟩ := shrink_holds
    (c := ⟨newsize + 24, true, by omega, by omega⟩)
    (d := ⟨b.size - (newsize + 24), false, by omega, by omega⟩)
    hh hb rfl rfl rfl (by dsimp only; omega) (by dsimp only; omega)
  refine Effect.same_ptr hsame hholds
    ⟨_, markedAt_cut.mpr (Or.inr (Or.inl ⟨rfl, hb⟩)), rfl⟩ (fun x => ?_) fun he h8 => hj.grain 8 ?_
  · rw [hj.live, markedAt_cut, markedAt_cut, markedAt_cons]
    dsimp only
    rw [show h.start_addr + total pre + (newsize + 24) + (b.size - (newsize + 24)) =
      h.start_addr + total pre + b.size by omega]
    simp [hb]
  · have h8n := heven he
    simp only [List.forall_mem_append, List.forall_mem_cons] at h8 ⊢
    exact ⟨h8.1, by omega, by omega, h8.2.2⟩

theorem rt_memheap_realloc_returns {ptr : Option Nat} (hh : Holds h bs fl)
    (hptr : ∀ p, ptr = some p → LivePtr h bs p) (hlt : newsize < 2 ^ 32)
    (hrange : InRange h ptr newsize) :
    Returns (fun k => rt_memheap_realloc k h ptr newsize) (fl.length + 1) fun r =>
      Effect h bs (EvenRealloc h ptr newsize) (if newsize = 0 ∨ r.2.isSome then ptr else none) r.2
        r.1 := by
  by_cases hz : newsize = 0
  · subst hz
    cases ptr with
    | none => exact Returns.const (Effect.nothing hh)
    | some p =>
      obtain ⟨h', hrun, he⟩ := rt_memheap_free_effect (EvenRealloc h (some p) 0) hh (hptr p rfl)
      simp only [rt_memheap_realloc, if_true, hrun]
      exact Returns.const he
  cases ptr with
  | none =>
    simp only [rt_memheap_realloc, if_neg hz]
    refine (rt_memheap_alloc_returns hh _).weaken fun r hr => ?_
    simpa using hr.1.mono fun _ => Or.inl (alignedSize_twice newsize)
  | some p =>
    obtain ⟨pre, b, post, rfl, hb, rfl⟩ := hh.live_cut (hptr p rfl)
    have hs := hh.toShape
    have hold := hs.memitem_size
    have hnext := hs.next
    have hbr := b.room_le
    have hroom := hh.used_room b (by simp) hb
    have hfits := hh.fits
    simp only [total_append, total_cons] at hfits
    have hx : h.start_addr + total pre + 24 - RT_MEMHEAP_SIZE = h.start_addr + total pre := by
      rw [RT_MEMHEAP_SIZE_eq, Nat.add_sub_cancel]
    have hrange' := hrange
    simp only [rt_memheap_realloc_eq _ h hz, hx, hold]
    obtain ⟨hmin, h4, hmax, height⟩ := alignedSize_bounds newsize
    have hsum := alignedSize_add hlt
    have heven : EvenRealloc h (some (h.start_addr + total pre + 24)) newsize →
        8 ∣ alignedSize newsize ∨ b.size - 24 ≤ 48 := by
      intro he
      refine height.symm.imp id fun h12 => ?_
      have := he hz h12 _ rfl
      rwa [hx, hold] at this
    simp only [hz, false_or]
    generalize alignedSize newsize = n at *
    by_cases hgrow : b.size - 24 < n
    · have h8 : 8 ∣ n := height.resolve_left (by omega)
      have hmoved := reallocate_returns (EvenRealloc h (some (h.start_addr + total pre + 24))
        newsize) hh (hptr _ rfl) hgrow h8 hmin hmax
      have hlink : h.start_addr + total pre < h.get .next (h.start_addr + total pre) := by omega
      simp only [if_pos hgrow, RT_ASSERT_true hlink]
      rcases hs.right_cases with ⟨hu, -⟩ | ⟨d, post', rfl, hd, -, hu⟩
      · have hno : ¬(¬RT_MEMHEAP_IS_USED h (h.get .next (h.start_addr + total pre)) ∧
            add32 n RT_MEMHEAP_MINIALLOC <
              add32 (MEMITEM_SIZE h (h.get .next (h.start_addr + total pre))) (b.size - 24)) :=
          fun hc => hc.1 hu
        simp only [if_neg hno]
        exact hmoved
      · have hs' : Shape h ((pre ++ [b]) ++ d :: post') fl := by simpa using hs
        have hbehind : MEMITEM_SIZE h (h.start_addr + total pre + b.size) = d.size - 24 := by
          have hsize := hs'.memitem_size
          simpa [Nat.add_assoc] using hsize
        have hdr := d.room_le
        have hwrap : n + 12 < 2 ^ 32 := by
          refine hsum.resolve_right fun hbig => hu ?_
          have hused := hrange' hbig.1 hbig.2 _ rfl
          rwa [hx, hnext] at hused
        simp only [total_cons] at hfits
        rw [hnext, hbehind, RT_MEMHEAP_MINIALLOC_eq, add32_of_lt hwrap, add32_of_lt (by omega)]
        by_cases hfit : n + 12 < d.size - 24 + (b.size - 24)
        · simp only [if_pos (And.intro hu hfit)]
          exact Returns.const (expand_effect hh hb hd (by omega) h4 hfit fun _ => h8)
        · simp only [if_neg (fun hc : _ ∧ _ => hfit hc.2)]
          exact hmoved
    · simp only [if_neg hgrow]
      have hsum : add32 n RT_MEMHEAP_SIZE = n + 24 := by
        rw [RT_MEMHEAP_SIZE_eq, add32_of_lt (by omega)]
      rw [hsum, RT_MEMHEAP_MINIALLOC_eq, add32_of_lt (by omega)]
      by_cases hkeep : b.size - 24 ≤ n + 24 + 12
      · simp only [if_pos hkeep]
        exact Returns.const (Effect.same_ptr (SamePool.refl h) hh (hptr _ rfl) (fun _ => Iff.rfl)
          fun _ h8 => h8)
      · simp only [if_neg hkeep]
        refine Returns.const (shrink_effect hh hb (by omega) hmin h4 fun he => ?_)
        exact (heven he).resolve_right (by omega)

end

end Ab32Vg1.Kernel.Memheap
