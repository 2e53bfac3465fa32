import Ab32Vg1.Kernel.MemheapRealloc
import Ab32Vg1.ProofKit.Transition

/-! Runs of a memory heap: any sequence of calls by clients that hand back only live pointers and
write only to the payloads they hold. -/

namespace Ab32Vg1.Kernel.Memheap

open ProofKit ProofKit.Tiling

/-! ### The invariant on the items -/

/-- Following `next` from the item at `o` visits the items `os`, each a header's length or more behind
the one before it, and then `tail`. -/
def Tiles (h : MemHeap) : (o : Nat) → (os : List Nat) → (tail : Nat) → Prop
  | o, [], tail => o = tail
  | o, p :: ps, tail => p = o ∧ o + RT_MEMHEAP_SIZE ≤ h.get .next o ∧ Tiles h (h.get .next o) ps tail

/-- A heap with the pointers its clients hold. -/
structure World where
  heap : MemHeap
  live : List Nat

/-- The tailer of the pool. -/
def tailer (h : MemHeap) : Nat := h.start_addr + h.pool_size - RT_MEMHEAP_SIZE

/-- The end of the payload at `p`. -/
def payloadEnd (h : MemHeap) (p : Nat) : Nat := p + MEMITEM_SIZE h (p - RT_MEMHEAP_SIZE)

/-- The items of the pool are `os`, and those of the free list `fl`. -/
structure PoolInvariant (w : World) (os fl : List Nat) : Prop where
  tiles : Tiles w.heap w.heap.start_addr os (tailer w.heap)
  ring : w.heap.get .next (tailer w.heap) = w.heap.start_addr
  prev_eq : ∀ o ∈ tailer w.heap :: os, w.heap.get .prev (w.heap.get .next o) = o
  free_list : Chained (w.heap.get .next_free) (w.heap.get .prev_free) w.heap.free_list fl
    w.heap.free_list
  free_nodup : fl.Nodup
  free_iff : ∀ x, x ∈ fl ↔ x ∈ os ∧ ¬RT_MEMHEAP_IS_USED w.heap x
  coalesced : ∀ o ∈ os, ¬RT_MEMHEAP_IS_USED w.heap o →
    RT_MEMHEAP_IS_USED w.heap (w.heap.get .next o)
  available_eq : w.heap.available_size =
    ((os.filter fun o => ¬RT_MEMHEAP_IS_USED w.heap o).map (MEMITEM_SIZE w.heap)).sum
  live_iff : ∀ p, p ∈ w.live ↔ ∃ o ∈ os, RT_MEMHEAP_IS_USED w.heap o ∧ p = o + RT_MEMHEAP_SIZE
  live_nodup : w.live.Nodup
  inside : ∀ p ∈ w.live, w.heap.start_addr ≤ p ∧ p < payloadEnd w.heap p ∧
    payloadEnd w.heap p ≤ tailer w.heap
  disjoint : ∀ p ∈ w.live, ∀ q ∈ w.live, p ≠ q →
    payloadEnd w.heap p ≤ q ∨ payloadEnd w.heap q ≤ p

/-! ### Calls -/

/-- What a client does: it calls the heap, or it writes to memory. -/
inductive Op where
  | alloc (size : Nat)
  | realloc (ptr : Option Nat) (newsize : Nat)
  | free (ptr : Option Nat)
  | store (words : Words)

/-- Sizes are words, pointers handed back are live, and writes stay in the live payloads. -/
def Op.Valid (w : World) : Op → Prop
  | .alloc size => size < 2 ^ 32
  | .realloc ptr newsize => (∀ p, ptr = some p → p ∈ w.live) ∧ newsize < 2 ^ 32
  | .free ptr => ∀ p, ptr = some p → p ∈ w.live
  | .store words => ∀ a, words a ≠ w.heap.words a → ∃ p ∈ w.live, p ≤ a ∧ a < payloadEnd w.heap p

def Op.call (fuel : Nat) (h : MemHeap) : Op → Option (MemHeap × Option Nat)
  | .alloc size => rt_memheap_alloc fuel h size
  | .realloc ptr newsize => rt_memheap_realloc fuel h ptr newsize
  | .free ptr => (rt_memheap_free h ptr).map fun h => (h, none)
  | .store words => some ({ h with words }, none)

/-- The pointer that is no longer live once the call returned `got`. -/
def Op.dead (got : Option Nat) : Op → Option Nat
  | .realloc ptr newsize => if newsize = 0 ∨ got.isSome then ptr else none
  | .free ptr => ptr
  | _ => none

/-- The live pointers after a call gave up `dead` and returned `got`. -/
def settle (live : List Nat) (dead got : Option Nat) : List Nat :=
  got.toList ++ live.filter fun p => some p ≠ dead

/-- What the call asks for does not wrap where `rt_memheap_realloc` looks for room behind a block. -/
def Op.Safe (w : World) : Op → Prop
  | .realloc ptr newsize => InRange w.heap ptr newsize
  | _ => True

/-- The call cuts no block at 12 bytes. -/
def Op.Even (h : MemHeap) : Op → Prop
  | .alloc size => EvenAlloc h size
  | .realloc ptr newsize => EvenRealloc h ptr newsize
  | _ => True

/-- The pool lies in the address space, and the heap's own structure is not in it. -/
structure Layout (free_header start_addr size : Nat) : Prop where
  fits : start_addr + RT_ALIGN_DOWN size RT_ALIGN_SIZE ≤ 2 ^ 32
  outside : free_header + RT_MEMHEAP_SIZE ≤ start_addr ∨
    start_addr + RT_ALIGN_DOWN size RT_ALIGN_SIZE ≤ free_header

/-- A heap on the `size` bytes at `start_addr`. -/
def poolMachine (words : Words) (memheap free_header start_addr size : Nat) : Machine World Op where
  start w := w = ⟨rt_memheap_init words memheap free_header start_addr size, []⟩
  step w op w' := op.Valid w ∧ ∃ fuel got, op.call fuel w.heap = some (w'.heap, got) ∧
    w'.live = settle w.live (op.dead got) got

/-- The heap meets its invariant, and every valid call in range returns. -/
def PoolContract (w : World) : Prop :=
  (∃ os fl, PoolInvariant w os fl) ∧
    ∀ op : Op, op.Valid w → op.Safe w → ∃ fuel r, op.call fuel w.heap = some r

/-! ### The start -/

section Start

variable {words : Words} {memheap free_header start_addr size : Nat}

/-- The fields of an item after it is written. -/
theorem get_item {h : MemHeap} {x y m q n p nf pf : Nat} {g : Field} (ha : Apart 24 x y) :
    ((((((h.set .magic x m).set .pool_ptr x q).set .next x n).set .prev x p).set .next_free x
      nf).set .prev_free x pf).get g y =
      if y = x then
        match g with
        | .magic => m
        | .pool_ptr => q
        | .next => n
        | .prev => p
        | .next_free => nf
        | .prev_free => pf
      else h.get g y := by
  simp only [get_set ha]
  by_cases hy : y = x
  · cases g <;> simp [hy]
  · simp [hy]

/-- The header of the free list and the first block, before the block is listed. -/
def firstItems (h : MemHeap) : MemHeap :=
  let item := h.free_list
  let h := ((h.set .magic item (magicWord false)).set .pool_ptr item h.self).set .next item 0
  let h := ((h.set .prev item 0).set .next_free item item).set .prev_free item item
  let item := h.start_addr
  let h := ((h.set .magic item (magicWord false)).set .pool_ptr item h.self).set .next item 0
  let h := ((h.set .prev item 0).set .next_free item item).set .prev_free item item
  let h := h.set .next item (add32 (add32 item h.available_size) RT_MEMHEAP_SIZE)
  h.set .prev item (h.get .next item)

/-- The tailer. -/
def lastItem (h : MemHeap) : MemHeap :=
  let item := h.get .next h.start_addr
  let h := (h.set .magic item (magicWord true)).set .pool_ptr item h.self
  let h := (h.set .next item h.start_addr).set .prev item h.start_addr
  (h.set .prev_free item 0).set .next_free item 0

theorem rt_memheap_init_eq : rt_memheap_init words memheap free_header start_addr size =
    lastItem (insertFree (firstItems
      { words
        self := memheap
        start_addr
        pool_size := RT_ALIGN_DOWN size RT_ALIGN_SIZE
        available_size := sub32 (RT_ALIGN_DOWN size RT_ALIGN_SIZE) (2 * RT_MEMHEAP_SIZE)
        max_used_size := sub32 (RT_ALIGN_DOWN size RT_ALIGN_SIZE)
          (sub32 (RT_ALIGN_DOWN size RT_ALIGN_SIZE) (2 * RT_MEMHEAP_SIZE))
        block_list := start_addr
        free_list := free_header }) start_addr) := rfl

theorem firstItems_holds {h : MemHeap} {t : Nat} (hfs : Apart 24 h.free_list h.start_addr)
    (hne : h.free_list ≠ h.start_addr)
    (ht : add32 (add32 h.start_addr h.available_size) RT_MEMHEAP_SIZE = t) :
    ∀ g,
      (firstItems h).get g h.free_list =
        (match g with
        | .magic => magicWord false
        | .pool_ptr => h.self
        | .next => 0
        | .prev => 0
        | .next_free => h.free_list
        | .prev_free => h.free_list) ∧
      (firstItems h).get g h.start_addr =
        (match g with
        | .magic => magicWord false
        | .pool_ptr => h.self
        | .next => t
        | .prev => t
        | .next_free => h.start_addr
        | .prev_free => h.start_addr) := by
  intro g
  have hss := Apart.refl 24 h.start_addr
  have hff := Apart.refl 24 h.free_list
  simp only [firstItems, MemHeap.set_start_addr, MemHeap.set_available_size, MemHeap.set_self, ht,
    get_set hss, get_set hfs.symm, get_item hff, get_item hfs]
  cases g <;> simp [hne]

/-- The free list and the ring once the first block is listed and the tailer is written. -/
theorem lastItem_holds {h : MemHeap} {t : Nat} (hfs : Apart 24 h.free_list h.start_addr)
    (hft : Apart 24 h.free_list t) (hst : Apart 24 h.start_addr t) (hne : h.free_list ≠ h.start_addr)
    (hnt : h.start_addr ≠ t) (hnf : h.free_list ≠ t)
    (hlist : h.get .next_free h.free_list = h.free_list) (hnext : h.get .next h.start_addr = t) :
    let g := lastItem (insertFree h h.start_addr)
    (∀ f, g.get f t =
        match f with
        | .magic => magicWord true
        | .pool_ptr => h.self
        | .next => h.start_addr
        | .prev => h.start_addr
        | .next_free => 0
        | .prev_free => 0) ∧
      (∀ f, g.get f h.start_addr =
        match f with
        | .next_free => h.free_list
        | .prev_free => h.free_list
        | f => h.get f h.start_addr) ∧
      g.get .next_free h.free_list = h.start_addr ∧ g.get .prev_free h.free_list = h.start_addr := by
  intro g
  have hss := Apart.refl 24 h.start_addr
  have hff := Apart.refl 24 h.free_list
  have htt := Apart.refl 24 t
  have hmid : ∀ f y, Apart 24 h.start_addr y → Apart 24 h.free_list y →
      (insertFree h h.start_addr).get f y =
        if .next_free = f ∧ y = h.free_list then h.start_addr
        else if .prev_free = f ∧ y = h.free_list then h.start_addr
        else if .prev_free = f ∧ y = h.start_addr then h.free_list
        else if .next_free = f ∧ y = h.start_addr then h.free_list else h.get f y := by
    intro f y hsy hfy
    simp only [insertFree, MemHeap.set_free_list, get_set hsy, get_set hfy, get_set hfs.symm, hlist,
      hne, reduceCtorEq, and_false, if_false]
  have hat : (insertFree h h.start_addr).get .next h.start_addr = t := by
    rw [hmid _ _ hss hfs]
    simpa using hnext
  have hend : ∀ f y, Apart 24 t y → g.get f y =
      if y = t then
        match f with
        | .magic => magicWord true
        | .pool_ptr => h.self
        | .next => h.start_addr
        | .prev => h.start_addr
        | .next_free => 0
        | .prev_free => 0
      else (insertFree h h.start_addr).get f y := by
    intro f y hy
    have hstart : (insertFree h h.start_addr).start_addr = h.start_addr := rfl
    have hself : (insertFree h h.start_addr).self = h.self := rfl
    simp only [g, lastItem, MemHeap.set_start_addr, hstart, hself, hat, get_set hy]
    by_cases hyt : y = t
    · cases f <;> simp [hyt]
    · simp [hyt]
  refine ⟨fun f => ?_, fun f => ?_, ?_, ?_⟩
  · rw [hend f t htt, if_pos rfl]
  · rw [hend f _ hst.symm, if_neg hnt, hmid f _ hss hfs]
    cases f <;> simp [hne.symm]
  · rw [hend _ _ hft.symm, if_neg hnf, hmid _ _ hfs.symm hff]
    simp
  · rw [hend _ _ hft.symm, if_neg hnf, hmid _ _ hfs.symm hff]
    simp

/-- The items of a heap with one free block. -/
theorem holds_single {h : MemHeap} {b : Blk} (hb : b.used = false)
    (hfits : h.start_addr + b.size + 24 ≤ 2 ^ 32)
    (hout : h.free_list + 24 ≤ h.start_addr ∨ h.start_addr + b.size + 24 ≤ h.free_list)
    (hpool : h.pool_size = b.size + 24) (havail : h.available_size = b.size - 24)
    (hring : Chained (h.get .next) (h.get .prev) (h.start_addr + b.size) [h.start_addr]
      (h.start_addr + b.size))
    (hfree : Chained (h.get .next_free) (h.get .prev_free) h.free_list [h.start_addr] h.free_list)
    (hmagic : h.get .magic h.start_addr = magicWord false)
    (hself : h.get .pool_ptr h.start_addr = h.self)
    (htail : h.get .magic (h.start_addr + b.size) = magicWord true) : Holds h [b] [h.start_addr] := by
  have htotal : total [b] = b.size := by simp
  refine ⟨⟨htotal ▸ hfits, htotal ▸ hout, htotal ▸ hring, hfree, by simp, fun x hx => ?_,
    fun a c hac => ?_, fun a ha => ?_, htotal ▸ htail⟩, htotal ▸ hpool, fun x => ?_, ?_,
    List.isChain_singleton b, by simp [hb]⟩
  · simpa [starts, placed] using hx
  · obtain ⟨rfl, rfl⟩ : a = h.start_addr ∧ c = b := by simpa [placed] using hac
    rw [hmagic, hb]
  · obtain rfl : a = h.start_addr := by simpa [starts, placed] using ha
    exact hself
  · rw [markedAt_cons]
    simp [MarkedAt, placed, hb]
  · simp [hb, havail]

/-- A pool with room for two items becomes one free block and the tailer. -/
theorem rt_memheap_init_spec (words : Words) (memheap : Nat) (hl : Layout free_header start_addr size)
    (hsize : 48 ≤ RT_ALIGN_DOWN size RT_ALIGN_SIZE) :
    let h := rt_memheap_init words memheap free_header start_addr size
    h.start_addr = start_addr ∧
      ∃ b : Blk, b.used = false ∧ 8 ∣ b.size ∧ Holds h [b] [h.start_addr] := by
  obtain ⟨hfits, hout⟩ := hl
  have h8 : 8 ∣ RT_ALIGN_DOWN size RT_ALIGN_SIZE := RT_ALIGN_DOWN_eight_dvd size
  have hlt : RT_ALIGN_DOWN size RT_ALIGN_SIZE < 2 ^ 32 := RT_ALIGN_DOWN_eight_lt size
  rw [rt_memheap_init_eq]
  generalize RT_ALIGN_DOWN size RT_ALIGN_SIZE = pool at *
  rw [RT_MEMHEAP_SIZE_eq] at hout
  have havail : sub32 pool (2 * RT_MEMHEAP_SIZE) = pool - 48 := by
    rw [RT_MEMHEAP_SIZE_eq, sub32_of_le (by omega) (by omega)]
  rw [havail]
  generalize hh0 : MemHeap.mk words memheap start_addr pool (pool - 48) (sub32 pool (pool - 48))
    start_addr free_header = h0
  obtain rfl : h0.start_addr = start_addr := hh0 ▸ rfl
  obtain rfl : h0.free_list = free_header := hh0 ▸ rfl
  obtain rfl : h0.pool_size = pool := hh0 ▸ rfl
  have ha0 : h0.available_size = h0.pool_size - 48 := hh0 ▸ rfl
  have ht : add32 (add32 h0.start_addr h0.available_size) RT_MEMHEAP_SIZE =
      h0.start_addr + (h0.pool_size - 24) := by
    have hsum : add32 h0.start_addr h0.available_size = h0.start_addr + h0.available_size :=
      add32_of_lt (by omega)
    rw [hsum, RT_MEMHEAP_SIZE_eq, add32_of_lt (by omega)]
    omega
  have hfs : Apart 24 h0.free_list h0.start_addr := by unfold Apart; omega
  have hft : Apart 24 h0.free_list (h0.start_addr + (h0.pool_size - 24)) := by unfold Apart; omega
  have hst : Apart 24 h0.start_addr (h0.start_addr + (h0.pool_size - 24)) := by unfold Apart; omega
  have hne : h0.free_list ≠ h0.start_addr := by omega
  have hfirst := firstItems_holds hfs hne ht
  obtain ⟨htail, hstart, hnf, hpf⟩ := lastItem_holds (h := firstItems h0) hfs hft hst hne
    (show h0.start_addr ≠ _ by omega) (show h0.free_list ≠ _ by omega) (hfirst .next_free).1
    (hfirst .next).2
  have hsame : SamePool h0 (lastItem (insertFree (firstItems h0) (firstItems h0).start_addr)) :=
    ⟨rfl, rfl, rfl, rfl⟩
  have ha3 : (lastItem (insertFree (firstItems h0) (firstItems h0).start_addr)).available_size =
      h0.available_size := rfl
  have hs1 : (firstItems h0).start_addr = h0.start_addr := rfl
  have hf1 : (firstItems h0).free_list = h0.free_list := rfl
  have hself1 : (firstItems h0).self = h0.self := rfl
  generalize firstItems h0 = h1 at *
  simp only [hs1] at hsame ha3 hstart htail hnf hpf
  generalize lastItem (insertFree h1 h0.start_addr) = h3 at *
  refine ⟨hsame.start_addr, ⟨h0.pool_size - 24, false, by omega, by omega⟩, rfl, by dsimp only; omega, ?_⟩
  have hnext := (hstart .next).trans (hfirst .next).2
  have hprev := (hstart .prev).trans (hfirst .prev).2
  have hmagic := (hstart .magic).trans (hfirst .magic).2
  have hpool := (hstart .pool_ptr).trans (hfirst .pool_ptr).2
  have hnf' := hstart .next_free
  have hpf' := hstart .prev_free
  have hring := htail .next
  have hback := htail .prev
  have hlast := htail .magic
  refine holds_single rfl ?_ ?_ ?_ ?_ ?_ ?_ ?_ ?_ ?_ <;>
    simp only [hsame.start_addr, hsame.free_list, hsame.pool_size, hsame.self, ha3]
  · omega
  · omega
  · omega
  · omega
  · exact ⟨hring, hprev, hnext, hback⟩
  · rw [hf1] at hnf hpf hnf' hpf'
    exact ⟨hnf, hpf', hnf', hpf⟩
  · exact hmagic
  · exact hpool
  · exact hlast

end Start

/-! ### From the tiling to the items -/

/-- The pointers that are live are those of the blocks in use. -/
structure Tracks (w : World) (bs : List Blk) (fl : List Nat) : Prop where
  holds : Holds w.heap bs fl
  live_iff : ∀ p, p ∈ w.live ↔ LivePtr w.heap bs p
  live_nodup : w.live.Nodup

section Items

variable {h : MemHeap} {bs pre post : List Blk} {b : Blk} {fl : List Nat}

theorem Holds.tailer_eq (hh : Holds h bs fl) : tailer h = h.start_addr + total bs := by
  rw [tailer, hh.pool_eq, RT_MEMHEAP_SIZE_eq]
  omega

theorem Shape.tiles (hs : Shape h (pre ++ bs) fl) :
    Tiles h (h.start_addr + total pre) (starts (h.start_addr + total pre) bs)
      (h.start_addr + total (pre ++ bs)) := by
  induction bs generalizing pre with
  | nil => simp [starts, placed, Tiles]
  | cons b bs ih =>
    have hroom := b.room_le
    have hs' : Shape h ((pre ++ [b]) ++ bs) fl := by simpa using hs
    have htail := ih hs'
    refine ⟨rfl, ?_, ?_⟩
    · rw [hs.next, RT_MEMHEAP_SIZE_eq]
      omega
    · have hat : h.start_addr + total (pre ++ [b]) = h.start_addr + total pre + b.size := by
        simp [Nat.add_assoc]
      rw [hat, List.append_assoc] at htail
      rw [hs.next]
      exact htail

theorem Shape.tail_next (hs : Shape h bs fl) :
    h.get .next (h.start_addr + total bs) = h.start_addr := by
  have hring := hs.ring
  cases bs with
  | nil => exact hring.1
  | cons b bs => exact hring.1

/-- A statement about every item of the pool is one about every cut of the tiling. -/
theorem forall_items {P : Nat → Prop}
    (hp : ∀ pre b post, bs = pre ++ b :: post → P (h.start_addr + total pre)) :
    ∀ o ∈ starts h.start_addr bs, P o := by
  intro o ho
  obtain ⟨pre, b, post, hbs, rfl⟩ := mem_starts.mp ho
  exact hp pre b post hbs

theorem Shape.freeSum (hs : Shape h (pre ++ bs) fl) :
    (((starts (h.start_addr + total pre) bs).filter fun o => ¬RT_MEMHEAP_IS_USED h o).map
      (MEMITEM_SIZE h)).sum = freeRoom bs := by
  induction bs generalizing pre with
  | nil => rfl
  | cons b bs ih =>
    have hsize := hs.memitem_size
    have hiff := hs.used_iff
    have hs' : Shape h ((pre ++ [b]) ++ bs) fl := by simpa using hs
    have htail := ih hs'
    rw [total_append, total_cons, total_nil, Nat.add_zero, ← Nat.add_assoc] at htail
    have hcons : starts (h.start_addr + total pre) (b :: bs) =
      (h.start_addr + total pre) :: starts (h.start_addr + total pre + b.size) bs := rfl
    rw [hcons, freeRoom_cons, ← htail]
    cases hb : b.used with
    | true =>
      have hu := hiff.mpr hb
      rw [List.filter_cons_of_neg (by simpa using hu)]
      simp
    | false =>
      have hu : ¬RT_MEMHEAP_IS_USED h (h.start_addr + total pre) := by simp [hiff, hb]
      rw [List.filter_cons_of_pos (by simpa using hu)]
      simp [hsize]

theorem Shape.used_marked (hs : Shape h bs fl) {u : Bool} {x : Nat} :
    MarkedAt u h.start_addr bs x ↔
      x ∈ starts h.start_addr bs ∧ (RT_MEMHEAP_IS_USED h x ↔ u = true) := by
  constructor
  · rintro ⟨b, hb, rfl⟩
    obtain ⟨pre, post, rfl, rfl⟩ := mem_placed.mp hb
    exact ⟨List.mem_map_of_mem hb, hs.used_iff⟩
  · rintro ⟨hx, hu⟩
    obtain ⟨pre, b, post, rfl, rfl⟩ := mem_starts.mp hx
    refine ⟨b, mem_placed.mpr ⟨pre, post, rfl, rfl⟩, ?_⟩
    rw [hs.used_iff] at hu
    exact Bool.eq_iff_iff.mpr hu

theorem Tracks.poolInvariant {w : World} (ht : Tracks w bs fl) :
    PoolInvariant w (starts w.heap.start_addr bs) fl := by
  have hh := ht.holds
  have hs := hh.toShape
  have hs0 : Shape w.heap ([] ++ bs) fl := hs
  have htail := hh.tailer_eq
  have hend : ∀ p ∈ w.live, ∃ pre b post, bs = pre ++ b :: post ∧ b.used = true ∧
      p = w.heap.start_addr + total pre + 24 ∧
      payloadEnd w.heap p = w.heap.start_addr + total pre + b.size := by
    intro p hp
    obtain ⟨pre, b, post, rfl, hb, rfl⟩ := hh.live_cut ((ht.live_iff p).mp hp)
    have hroom := b.room_le
    refine ⟨pre, b, post, rfl, hb, rfl, ?_⟩
    rw [payloadEnd, RT_MEMHEAP_SIZE_eq, Nat.add_sub_cancel, hs.memitem_size]
    omega
  refine ⟨?_, ?_, ?_, hs.free, hs.fl_nodup, fun x => ?_, ?_, ?_, fun p => ?_, ht.live_nodup, ?_, ?_⟩
  · rw [htail]
    exact hs0.tiles
  · rw [htail, hs.tail_next]
  · rw [htail]
    exact hs.ring.prev_next
  · rw [hh.listed, hs.used_marked]
    simp
  · refine forall_items fun pre b post hbs hfree => ?_
    subst hbs
    rw [hs.next, hs.next_used_iff]
    rw [hs.used_iff] at hfree
    exact hh.coalesced.right.head_used (by simpa using hfree)
  · rw [hh.available_eq]
    exact hs0.freeSum.symm
  · rw [ht.live_iff, LivePtr, RT_MEMHEAP_SIZE_eq]
    simp only [hs.used_marked, iff_true, and_assoc]
  · intro p hp
    obtain ⟨pre, b, post, rfl, hb, rfl, he⟩ := hend p hp
    have hroom := hh.used_room b (by simp) hb
    rw [he, htail, total_append, total_cons]
    omega
  · intro p hp q hq hne
    obtain ⟨pre, b, post, hbs, hb, rfl, he⟩ := hend p hp
    obtain ⟨pre', b', post', hbs', hb', rfl, he'⟩ := hend q hq
    have hdis := placed_disjoint (mem_placed.mpr ⟨pre, post, hbs, rfl⟩)
      (mem_placed.mpr ⟨pre', post', hbs', rfl⟩)
      (by omega : w.heap.start_addr + total pre ≠ w.heap.start_addr + total pre')
    omega

end Items

/-! ### Runs -/

section Runs

variable {w w' : World} {bs : List Blk} {fl : List Nat} {even : Prop} {dead got : Option Nat}

/-- An effect on the tiling, seen by the clients. -/
theorem Effect.tracks (ht : Tracks w bs fl) (he : Effect w.heap bs even dead got w'.heap)
    (hl : w'.live = settle w.live dead got) :
    ∃ bs' fl', Tracks w' bs' fl' ∧ (even → (∀ b ∈ bs, 8 ∣ b.size) → ∀ b ∈ bs', 8 ∣ b.size) := by
  obtain ⟨hsame, ⟨bs', fl', hh, hlive, heven⟩, hfresh⟩ := he
  refine ⟨bs', fl', ⟨hh, fun p => ?_, ?_⟩, heven⟩
  · rw [hl, settle, List.mem_append, List.mem_filter, ht.live_iff, Option.mem_toList, LivePtr, LivePtr,
      hsame.start_addr]
    simp only [decide_eq_true_eq, hlive]
    constructor
    · rintro (hp | ⟨⟨x, hx, rfl⟩, hne⟩)
      · have hroom := (hfresh p hp).1
        have hback : p - 24 + 24 = p := by omega
        exact ⟨p - 24, Or.inr (by rw [hback]; exact hp), hback.symm⟩
      · exact ⟨x, Or.inl ⟨hx, hne⟩, rfl⟩
    · rintro ⟨x, ⟨hx, hne⟩ | hx, rfl⟩
      · exact Or.inr ⟨⟨x, hx, rfl⟩, hne⟩
      · exact Or.inl hx
  · rw [hl, settle]
    cases got with
    | none => exact ht.live_nodup.filter _
    | some q =>
      refine List.nodup_cons.mpr ⟨fun hq => ?_, ht.live_nodup.filter _⟩
      obtain ⟨hq, hne⟩ := List.mem_filter.mp hq
      have := (hfresh q rfl).2 ((ht.live_iff q).mp hq)
      simp [this] at hne

/-- Every valid call in range returns, and gives up and returns the blocks it says. -/
theorem call_returns (ht : Tracks w bs fl) (op : Op) (hv : op.Valid w) (hs : op.Safe w) :
    Returns (fun fuel => op.call fuel w.heap) (fl.length + 1)
      fun r => Effect w.heap bs (op.Even w.heap) (op.dead r.2) r.2 r.1 := by
  have hh := ht.holds
  cases op with
  | alloc size => exact (rt_memheap_alloc_returns hh size).weaken fun r hr => hr.1.mono Or.inr
  | realloc ptr newsize =>
    exact rt_memheap_realloc_returns hh (fun p hp => (ht.live_iff p).mp (hv.1 p hp)) hv.2 hs
  | free ptr =>
    cases ptr with
    | none => exact Returns.const (Effect.nothing hh)
    | some p =>
      obtain ⟨h', hrun, he⟩ := rt_memheap_free_effect _ hh ((ht.live_iff p).mp (hv p rfl))
      simp only [Op.call, hrun]
      exact Returns.const he
  | store words =>
    have hstore : Holds { w.heap with words } bs fl := by
      refine hh.store fun a ha => ?_
      obtain ⟨p, hp, hlo, hhi⟩ := hv a ha
      obtain ⟨pre, b, post, rfl, hb, rfl⟩ := hh.live_cut ((ht.live_iff p).mp hp)
      have hroom := b.room_le
      rw [payloadEnd, RT_MEMHEAP_SIZE_eq, Nat.add_sub_cancel, hh.memitem_size] at hhi
      exact ⟨_, b, mem_placed.mpr ⟨pre, post, rfl, rfl⟩, hlo, by omega⟩
    exact Returns.const ⟨⟨rfl, rfl, rfl, rfl⟩,
      ⟨bs, fl, hstore, fun x => by simp [Op.dead], fun _ h8 => h8⟩, by simp⟩

end Runs

section Reachable

variable {words : Words} {memheap free_header start_addr size : Nat} {w : World}

/-- In a run whose calls stay in range every reached state is tracked. -/
theorem reachable_tracks (hl : Layout free_header start_addr size)
    (hsize : 48 ≤ RT_ALIGN_DOWN size RT_ALIGN_SIZE)
    (hr : ((poolMachine words memheap free_header start_addr size).restrict Op.Safe).Reachable w) :
    ∃ bs fl, Tracks w bs fl := by
  apply hr.invariant
  · rintro w rfl
    obtain ⟨-, b, hb, -, hh⟩ := rt_memheap_init_spec words memheap hl hsize
    refine ⟨[b], _, hh, fun p => ?_, List.nodup_nil⟩
    simp [LivePtr, hb, MarkedAt, placed]
  · rintro w op w' - ⟨bs, fl, ht⟩ ⟨hs, hv, fuel, got, hcall, hlive⟩
    obtain ⟨bs', fl', ht', -⟩ := ((call_returns ht op hv hs).post hcall).tracks ht hlive
    exact ⟨bs', fl', ht'⟩

/-- A pool with room for two items meets the contract while reallocations stay in range. -/
theorem memheap_invariant (hl : Layout free_header start_addr size)
    (hsize : 48 ≤ RT_ALIGN_DOWN size RT_ALIGN_SIZE)
    (hr : ((poolMachine words memheap free_header start_addr size).restrict Op.Safe).Reachable w) :
    PoolContract w := by
  obtain ⟨bs, fl, ht⟩ := reachable_tracks hl hsize hr
  refine ⟨⟨_, _, ht.poolInvariant⟩, fun op hv hs => ?_⟩
  exact ⟨_, (call_returns ht op hv hs).total (Nat.lt_succ_self _)⟩

end Reachable

/-! ### A run -/

/-- The pointer a call hands back, and the size it asks for. -/
def Op.args : Op → Option Nat × Nat
  | .alloc size => (none, size)
  | .realloc ptr newsize => (ptr, newsize)
  | .free ptr => (ptr, 0)
  | .store _ => (none, 0)

/-- A call, if its pointer is live and its size at most `limit`. -/
def World.next (limit : Nat) (w : World) (op : Op) : Option World :=
  match op with
  | .store _ => none
  | op =>
    if op.args.1.toList ⊆ w.live ∧ op.args.2 ≤ limit then
      (op.call 16 w.heap).map fun r => ⟨r.1, settle w.live (op.dead r.2) r.2⟩
    else none

theorem World.next_step {words : Words} {memheap free_header start_addr size limit : Nat}
    {w w' : World} {op : Op} (hlimit : limit < 2 ^ 32) (h : w.next limit op = some w') :
    (poolMachine words memheap free_header start_addr size).step w op w' := by
  have hcall : ∀ op : Op, op.Valid w →
      (op.call 16 w.heap).map (fun r => World.mk r.1 (settle w.live (op.dead r.2) r.2)) = some w' →
      (poolMachine words memheap free_header start_addr size).step w op w' := by
    intro op hv hmap
    obtain ⟨⟨g, got⟩, hrun, rfl⟩ := Option.map_eq_some_iff.mp hmap
    exact ⟨hv, 16, got, hrun, rfl⟩
  have hlive : ∀ ptr : Option Nat, ptr.toList ⊆ w.live → ∀ p, ptr = some p → p ∈ w.live := by
    rintro _ hsub p rfl
    exact hsub (by simp)
  cases op with
  | alloc size =>
    obtain ⟨⟨-, hle⟩, hmap⟩ := Option.ite_none_right_eq_some.mp h
    exact hcall _ (show size < 2 ^ 32 from Nat.lt_of_le_of_lt hle hlimit) hmap
  | realloc ptr newsize =>
    obtain ⟨⟨hsub, hle⟩, hmap⟩ := Option.ite_none_right_eq_some.mp h
    exact hcall _ ⟨hlive ptr hsub, Nat.lt_of_le_of_lt hle hlimit⟩ hmap
  | free ptr =>
    obtain ⟨⟨hsub, -⟩, hmap⟩ := Option.ite_none_right_eq_some.mp h
    exact hcall _ (hlive ptr hsub) hmap
  | store words => cases h

theorem World.next_safe {limit : Nat} {w w' : World} {op : Op} (hlimit : limit ≤ 2 ^ 32 - 16)
    (h : w.next limit op = some w') : op.Safe w := by
  cases op with
  | realloc ptr newsize =>
    obtain ⟨⟨-, hle⟩, -⟩ := Option.ite_none_right_eq_some.mp h
    have hle' : newsize ≤ limit := hle
    exact fun hlt => absurd hlt (by omega)
  | alloc size => trivial
  | free ptr => trivial
  | store words => trivial

/-- A pool of 512 bytes. -/
def pool512 : MemHeap := rt_memheap_init (fun _ => 0) 0x8000 0x8040 0x10000 512

example : pool512.available_size = 512 - 2 * RT_MEMHEAP_SIZE := by decide +kernel

theorem pool512_layout : Layout 0x8040 0x10000 512 := ⟨by decide, by decide⟩

/-- A block is moved, the block behind its old place is given back, and the new block is cut. -/
def moveAndCut : List Op :=
  [.alloc 16, .alloc 100, .realloc (some 0x10018) 200, .free (some 0x10040),
    .realloc (some 0x100c0) 100]

theorem memheap_invariant_moveAndCut : ∃ w,
    Machine.runs (World.next 1000) ⟨pool512, []⟩ moveAndCut = some w ∧ w.live = [0x100c0] ∧
      PoolContract w := by
  have hrun : ∃ w, Machine.runs (World.next 1000) ⟨pool512, []⟩ moveAndCut = some w ∧
      w.live = [0x100c0] := by
    decide +kernel
  obtain ⟨w, hw, hlive⟩ := hrun
  have hr : ((poolMachine (fun _ => 0) 0x8000 0x8040 0x10000 512).restrict Op.Safe).Reachable w :=
    (Machine.Reachable.start rfl).runs
      (fun _ _ _ h => ⟨World.next_safe (by decide) h, World.next_step (by decide) h⟩) hw
  exact ⟨w, hw, hlive, memheap_invariant pool512_layout (by decide) hr⟩

/-- Growing the first of two blocks to nearly 4 GiB makes the block behind it overlap its item. -/
theorem memheap_invariant_fails : ∃ w,
    (poolMachine (fun _ => 0) 0x8000 0x8040 0x10000 512).Reachable w ∧
      ¬∃ os fl, PoolInvariant w os fl := by
  have hrun : ∃ w, Machine.runs (World.next 0xffffffff) ⟨pool512, []⟩
        [.alloc 16, .realloc (some 0x10018) 0xfffffff8] = some w ∧
      w.heap.start_addr ≠ tailer w.heap ∧ w.heap.get .next w.heap.start_addr < w.heap.start_addr + 24 := by
    decide +kernel
  obtain ⟨w, hw, htail, hnext⟩ := hrun
  refine ⟨w, (Machine.Reachable.start rfl).runs (fun _ _ _ h => World.next_step (by decide) h) hw, ?_⟩
  rintro ⟨os, fl, hinv⟩
  cases os with
  | nil => exact htail hinv.tiles
  | cons o os =>
    have hroom := hinv.tiles.2.1
    rw [RT_MEMHEAP_SIZE_eq] at hroom
    omega

end Ab32Vg1.Kernel.Memheap
