import Ab32Vg1.Kernel.MemRealloc
import Ab32Vg1.ProofKit.Transition

/-! Runs of the allocator: any sequence of calls by clients that hand back only live pointers and
write only to the blocks they hold. -/

namespace Ab32Vg1.Kernel.Mem

open ProofKit ProofKit.Tiling

/-! ### The invariant on the headers -/

/-- Following `next` from offset `o` visits the offsets `os`, in increasing order, and then the
sentinel. -/
def Visits (h : Heap) : (o : Nat) → (os : List Nat) → Prop
  | o, [] => h.heap_ptr + o = h.heap_end
  | o, p :: ps => p = o ∧ h.heap_ptr + o < h.heap_end ∧ o < h.next (h.heap_ptr + o) ∧
    Visits h (h.next (h.heap_ptr + o)) ps

instance Visits.decidable (h : Heap) : (o : Nat) → (os : List Nat) → Decidable (Visits h o os)
  | _, [] => inferInstanceAs (Decidable (_ = _))
  | o, _ :: ps =>
    have := Visits.decidable h (h.next (h.heap_ptr + o)) ps
    inferInstanceAs (Decidable (_ ∧ _ ∧ _ ∧ _))

/-- The end of the user area at `p`. -/
def areaEnd (h : Heap) (p : Nat) : Nat := h.heap_ptr + h.next (p - SIZEOF_STRUCT_MEM)

/-- The allocator with the pointers its clients hold. -/
structure World where
  heap : Heap
  live : List Nat

structure HeapInvariant (w : World) (os : List Nat) : Prop where
  tiles : Visits w.heap 0 os
  prev_eq : ∀ o ∈ os, let n := w.heap.heap_ptr + w.heap.next (w.heap.heap_ptr + o)
    n ≠ w.heap.heap_end → w.heap.prev n = o
  coalesced : ∀ o ∈ os, let n := w.heap.heap_ptr + w.heap.next (w.heap.heap_ptr + o)
    w.heap.used (w.heap.heap_ptr + o) = 0 → n ≠ w.heap.heap_end → w.heap.used n ≠ 0
  lowest_free :
    (∃ o ∈ os, w.heap.lfree = w.heap.heap_ptr + o ∧ w.heap.used (w.heap.heap_ptr + o) = 0 ∧
      ∀ q ∈ os, w.heap.used (w.heap.heap_ptr + q) = 0 → o ≤ q) ∨
    (w.heap.lfree = w.heap.heap_end ∧ ∀ q ∈ os, w.heap.used (w.heap.heap_ptr + q) ≠ 0)
  live_iff : ∀ p, p ∈ w.live ↔ ∃ o ∈ os, w.heap.used (w.heap.heap_ptr + o) ≠ 0 ∧
    p = w.heap.heap_ptr + o + SIZEOF_STRUCT_MEM
  live_nodup : w.live.Nodup
  aligned : ∀ p ∈ w.live, RT_ALIGN_SIZE ∣ p
  inside : ∀ p ∈ w.live, w.heap.heap_ptr ≤ p ∧ p < areaEnd w.heap p ∧
    areaEnd w.heap p ≤ w.heap.heap_end
  disjoint : ∀ p ∈ w.live, ∀ q ∈ w.live, p ≠ q → areaEnd w.heap p ≤ q ∨ areaEnd w.heap q ≤ p
  used_mem_eq : w.heap.used_mem =
    ((os.filter fun o => w.heap.used (w.heap.heap_ptr + o) ≠ 0).map fun o =>
      w.heap.next (w.heap.heap_ptr + o) - o).sum

/-! ### Calls -/

/-- What a client does: it calls the allocator, or it writes a byte. -/
inductive Op where
  | malloc (size : Nat)
  | realloc (rmem : Option Nat) (newsize : Nat)
  | calloc (count size : Nat)
  | free (rmem : Option Nat)
  | write (addr : Nat) (value : UInt8)

/-- Pointers handed back are live, sizes stay below the last aligned word, and writes stay in a
live block. -/
def Op.Valid (w : World) : Op → Prop
  | .malloc size => size ≤ 2 ^ 32 - 8
  | .realloc rmem newsize => (∀ p, rmem = some p → p ∈ w.live) ∧ newsize ≤ 2 ^ 32 - 8
  | .calloc count size => count * size % 2 ^ 32 ≤ 2 ^ 32 - 8
  | .free rmem => ∀ p, rmem = some p → p ∈ w.live
  | .write addr _ => ∃ p ∈ w.live, p ≤ addr ∧ addr < areaEnd w.heap p

def Op.call (fuel : Nat) (h : Heap) : Op → Option (Heap × Option Nat)
  | .malloc size => rt_malloc fuel h size
  | .realloc rmem newsize => rt_realloc fuel h rmem newsize
  | .calloc count size => rt_calloc fuel h count size
  | .free rmem => (rt_free h rmem).map fun h => (h, none)
  | .write addr value => some (rt_memset h addr value 1, none)

/-- The pointer that is no longer live once the call returned `got`. -/
def Op.dead (got : Option Nat) : Op → Option Nat
  | .realloc rmem newsize => reallocDead rmem newsize got
  | .free rmem => rmem
  | _ => none

/-- The live pointers after a call gave up `dead` and returned `got`. -/
def settle (live : List Nat) (dead got : Option Nat) : List Nat :=
  got.toList ++ live.filter fun p => some p ≠ dead

/-- The allocator on the region from `begin_addr` to `end_addr`. -/
def heapMachine (bytes : Bytes) (begin_addr end_addr : Nat) : Machine World Op where
  start w := w = ⟨rt_system_heap_init (boot bytes) begin_addr end_addr, []⟩
  step w op w' := op.Valid w ∧ ∃ fuel got, op.call fuel w.heap = some (w'.heap, got) ∧
    w'.live = settle w.live (op.dead got) got

/-- The contract of the allocator: every valid call in a reached state returns, and every reached
state satisfies the invariant. -/
def HeapContract (bytes : Bytes) (begin_addr end_addr : Nat) : Prop :=
  ∀ w, (heapMachine bytes begin_addr end_addr).Reachable w →
    (∃ os, HeapInvariant w os) ∧
    ∀ op : Op, op.Valid w → ∃ w', (heapMachine bytes begin_addr end_addr).step w op w'

/-! ### From the tiling to the headers -/

section Headers

variable {h : Heap} {bs : List Blk}

/-- A statement about every block that `next` visits is one about every cut of the tiling. -/
theorem forall_starts {P : Nat → Prop}
    (hp : ∀ pre b post, bs = pre ++ b :: post → P (total pre)) : ∀ o ∈ starts 0 bs, P o := by
  intro o ho
  obtain ⟨pre, b, post, hbs, rfl⟩ := mem_starts.mp ho
  rw [Nat.zero_add]
  exact hp pre b post hbs

theorem Shape.visits {pre : List Blk} (hs : Shape h (pre ++ bs)) :
    Visits h (total pre) (starts (total pre) bs) := by
  have hend := hs.end_eq
  have hte := hs.total_eq
  rw [total_append] at hte
  induction bs generalizing pre with
  | nil =>
    rw [total_nil] at hte
    show h.heap_ptr + total pre = h.heap_end
    omega
  | cons b bs ih =>
    have hroom := b.room_le
    have hnext : h.next (h.heap_ptr + total pre) = total pre + b.size := hs.header.next
    have hs' : Shape h ((pre ++ [b]) ++ bs) := by simpa using hs
    have htail := ih hs' (by rw [total_append, total_cons, total_nil]; rw [total_cons] at hte; omega)
    rw [total_append, total_cons, total_nil, Nat.add_zero] at htail
    rw [total_cons] at hte
    refine ⟨rfl, by omega, by omega, ?_⟩
    rw [hnext]
    exact htail

theorem Shape.used_iff {pre post : List Blk} {b : Blk} (hs : Shape h (pre ++ b :: post)) :
    h.used (h.heap_ptr + total pre) = 0 ↔ b.used = false := by
  have hused : h.used (h.heap_ptr + total pre) = usedWord b.used := hs.header.used
  rw [hused]
  cases b.used <;> simp [usedWord]

/-- The block behind a block that is not the last one. -/
theorem Shape.behind {pre post : List Blk} {b : Blk} (hs : Shape h (pre ++ b :: post))
    (hne : h.heap_ptr + h.next (h.heap_ptr + total pre) ≠ h.heap_end) :
    ∃ c post', post = c :: post' ∧
      h.heap_ptr + h.next (h.heap_ptr + total pre) = h.heap_ptr + total (pre ++ [b]) := by
  have hnext : h.next (h.heap_ptr + total pre) = total pre + b.size := hs.header.next
  have hend := hs.end_eq
  have hsum := hs.sum
  rw [hnext] at hne ⊢
  cases post with
  | nil =>
    rw [total_nil] at hsum
    omega
  | cons c post' => exact ⟨c, post', rfl, by simp⟩

theorem Shape.usedSum {pre : List Blk} (hs : Shape h (pre ++ bs)) :
    (((starts (total pre) bs).filter fun o => h.used (h.heap_ptr + o) ≠ 0).map fun o =>
      h.next (h.heap_ptr + o) - o).sum = usedTotal bs := by
  induction bs generalizing pre with
  | nil => rfl
  | cons b bs ih =>
    have hnext : h.next (h.heap_ptr + total pre) = total pre + b.size := hs.header.next
    have hiff := hs.used_iff
    have hs' : Shape h ((pre ++ [b]) ++ bs) := by simpa using hs
    have htail := ih hs'
    rw [total_append, total_cons, total_nil, Nat.add_zero] at htail
    have hcons : starts (total pre) (b :: bs) = total pre :: starts (total pre + b.size) bs := rfl
    rw [hcons, usedTotal_cons, ← htail]
    cases hb : b.used with
    | true =>
      have hne : h.used (h.heap_ptr + total pre) ≠ 0 := fun h0 => by simp [hb] at hiff; exact hiff h0
      rw [List.filter_cons_of_pos (by simpa using hne)]
      simp [hnext]
    | false =>
      rw [List.filter_cons_of_neg (by simpa using hiff.mpr hb)]
      simp

/-- The pointers that are live are those of the blocks in use. -/
structure Tracks (w : World) (bs : List Blk) : Prop where
  holds : Holds w.heap bs
  live_iff : ∀ p, p ∈ w.live ↔ LivePtr w.heap bs p
  live_nodup : w.live.Nodup

theorem Tracks.heapInvariant {w : World} (ht : Tracks w bs) : HeapInvariant w (starts 0 bs) := by
  have hh := ht.holds
  have hs := hh.toShape
  have hend := hs.end_eq
  have harea : ∀ p ∈ w.live, ∃ pre b post, bs = pre ++ b :: post ∧ b.used = true ∧
      p = w.heap.heap_ptr + total pre + 16 ∧
      areaEnd w.heap p = w.heap.heap_ptr + (total pre + b.size) := by
    intro p hp
    obtain ⟨o, ho, rfl⟩ := (ht.live_iff p).mp hp
    obtain ⟨pre, b, post, rfl, rfl, hb⟩ := usedStarts_split ho
    refine ⟨pre, b, post, rfl, hb, rfl, ?_⟩
    rw [areaEnd, SIZEOF_STRUCT_MEM_eq, Nat.add_sub_cancel]
    exact congrArg _ hs.header.next
  refine ⟨?_, ?_, ?_, ?_, fun p => ?_, ht.live_nodup, ?_, ?_, ?_, ?_⟩
  · have hv : Shape w.heap ([] ++ bs) := hs
    exact hv.visits
  · refine forall_starts fun pre b post hbs => ?_
    subst hbs
    intro n hne
    obtain ⟨c, post', rfl, hat⟩ := hs.behind hne
    have hs' : Shape w.heap ((pre ++ [b]) ++ c :: post') := by simpa using hs
    have hprev : w.heap.prev (w.heap.heap_ptr + total (pre ++ [b])) = lastStart 0 0 (pre ++ [b]) :=
      hs'.header.prev
    rw [lastStart_snoc, Nat.zero_add] at hprev
    rw [show n = _ from hat, hprev]
  · refine forall_starts fun pre b post hbs => ?_
    subst hbs
    intro n hfree hne
    obtain ⟨c, post', rfl, hat⟩ := hs.behind hne
    have hs' : Shape w.heap ((pre ++ [b]) ++ c :: post') := by simpa using hs
    have hc := hh.coalesced.right.head_used (hs.used_iff.mp hfree) c rfl
    rw [show n = _ from hat]
    intro h0
    exact absurd (hs'.used_iff.mp h0) (by simp [hc])
  · cases hall : bs.all Block.used with
    | true =>
      have hff := firstFree_append_of_used (o := 0) hall []
      rw [List.append_nil] at hff
      refine Or.inr ⟨?_, forall_starts fun pre b post hbs h0 => ?_⟩
      · rw [hh.lfree_eq, hff, hend, ← hs.total_eq, firstFree, Nat.zero_add]
      · subst hbs
        have hb := hs.used_iff.mp h0
        simp [hb] at hall
    | false =>
      obtain ⟨b, hb, hbu⟩ := firstFree_split (o := 0) hall
      obtain ⟨pre, post, rfl, hoff⟩ := mem_placed.mp hb
      rw [Nat.zero_add] at hoff
      refine Or.inl ⟨total pre, mem_starts.mpr ⟨pre, b, post, rfl, by omega⟩, ?_, hs.used_iff.mpr hbu,
        forall_starts fun pre' b' post' hbs h0 => ?_⟩
      · rw [hh.lfree_eq, hoff]
      · have hs' : Shape w.heap (pre' ++ b' :: post') := hbs ▸ hs
        have hle := firstFree_le_of_free (o := 0) pre' post' (hs'.used_iff.mp h0)
        rw [← hbs, hoff] at hle
        omega
  · rw [ht.live_iff]
    constructor
    · rintro ⟨o, ho, rfl⟩
      obtain ⟨pre, b, post, rfl, rfl, hb⟩ := usedStarts_split ho
      refine ⟨total pre, mem_starts.mpr ⟨pre, b, post, rfl, by omega⟩, fun h0 => ?_, by simp⟩
      exact absurd (hs.used_iff.mp h0) (by simp [hb])
    · rintro ⟨o, ho, hne, rfl⟩
      obtain ⟨pre, b, post, rfl, rfl⟩ := mem_starts.mp ho
      rw [Nat.zero_add] at hne ⊢
      have hb : b.used = true := by
        cases hb : b.used with
        | true => rfl
        | false => exact absurd (hs.used_iff.mpr hb) hne
      refine ⟨total pre, mem_usedStarts.mpr ⟨b, mem_placed.mpr ⟨pre, post, rfl, by omega⟩, hb⟩, by simp⟩
  · intro p hp
    obtain ⟨pre, b, post, rfl, hb, rfl, -⟩ := harea p hp
    have h8 := hs.align
    have hpre := align_dvd_total pre
    rw [RT_ALIGN_SIZE_eq]
    omega
  · intro p hp
    obtain ⟨pre, b, post, rfl, hb, rfl, he⟩ := harea p hp
    have hroom := hh.used_room b (by simp) hb
    have hsum := hs.sum
    omega
  · intro p hp q hq hne
    obtain ⟨pre, b, post, hbs, hb, rfl, he⟩ := harea p hp
    obtain ⟨pre', b', post', hbs', hb', rfl, he'⟩ := harea q hq
    have hdis := placed_disjoint (mem_placed.mpr ⟨pre, post, hbs, rfl⟩)
      (mem_placed.mpr ⟨pre', post', hbs', rfl⟩) (by omega : 0 + total pre ≠ 0 + total pre')
    omega
  · have hv : Shape w.heap ([] ++ bs) := hs
    rw [hh.used_eq]
    exact hv.usedSum.symm

end Headers

/-! ### The start -/

section Start

variable {bytes : Bytes} {begin_addr end_addr : Nat}

/-- The header of the first block. -/
def firstHeader (m : Bytes) (mem stop : Nat) : Bytes :=
  (((m.store mem 2 HEAP_MAGIC).store (mem + 4) 4 stop).store (mem + 8) 4 0).store (mem + 2) 2 0

/-- The header of the sentinel. -/
def lastHeader (m : Bytes) (mem stop : Nat) : Bytes :=
  (((m.store mem 2 HEAP_MAGIC).store (mem + 2) 2 1).store (mem + 4) 4 stop).store (mem + 8) 4 stop

theorem firstHeader_at {m : Bytes} {mem stop : Nat} (hstop : stop < 256 ^ 4) :
    HeaderAt (firstHeader m mem stop) mem false stop 0 := by
  constructor <;>
    simp (disch := omega) only [firstHeader, Bytes.load_store_of_disjoint, Bytes.load_store_self] <;>
    simp [HEAP_MAGIC, usedWord]
  exact hstop

theorem lastHeader_at {m : Bytes} {mem stop : Nat} (hstop : stop < 256 ^ 4) :
    HeaderAt (lastHeader m mem stop) mem true stop stop := by
  constructor <;>
    simp (disch := omega) only [lastHeader, Bytes.load_store_of_disjoint, Bytes.load_store_self] <;>
    simp [HEAP_MAGIC, usedWord]
  · exact hstop
  · exact hstop

theorem lastHeader_outside {m : Bytes} {mem stop lo hi : Nat} (h : hi ≤ mem ∨ mem + 12 ≤ lo) :
    m.AgreeOn (lastHeader m mem stop) lo hi :=
  (Bytes.store_agreeOn (by omega)).trans <| (Bytes.store_agreeOn (by omega)).trans <|
    (Bytes.store_agreeOn (by omega)).trans <| Bytes.store_agreeOn (by omega)

theorem rt_system_heap_init_eq (bytes : Bytes) {mem last stop : Nat}
    (hmem : RT_ALIGN begin_addr RT_ALIGN_SIZE = mem)
    (hlast : RT_ALIGN_DOWN end_addr RT_ALIGN_SIZE = last) (hok : regionOk mem last)
    (hstop : last - mem - 2 * SIZEOF_STRUCT_MEM + SIZEOF_STRUCT_MEM = stop) (hlt : stop < 256 ^ 4) :
    rt_system_heap_init (boot bytes) begin_addr end_addr =
      { bytes := lastHeader (firstHeader bytes mem stop) (mem + stop) stop
        heap_ptr := mem
        heap_end := mem + stop
        lfree := mem
        mem_size_aligned := last - mem - 2 * SIZEOF_STRUCT_MEM
        used_mem := 0
        max_mem := 0 } := by
  have hread : (firstHeader bytes mem stop).load (mem + 4) 4 = stop := (firstHeader_at hlt).next
  unfold rt_system_heap_init
  rw [hmem, hlast]
  simp only [if_pos hok, Heap.setMagic, Heap.setNext, Heap.setPrev, Heap.setUsed, Heap.next, hstop]
  rw [show ((((boot bytes).bytes.store mem 2 HEAP_MAGIC).store (mem + 4) 4 stop).store (mem + 8) 4
    0).store (mem + 2) 2 0 = firstHeader bytes mem stop from rfl, hread]
  rfl

/-- An accepted region becomes one free block and the sentinel. -/
theorem rt_system_heap_init_spec (bytes : Bytes)
    (hok : regionOk (RT_ALIGN begin_addr RT_ALIGN_SIZE) (RT_ALIGN_DOWN end_addr RT_ALIGN_SIZE)) :
    let h := rt_system_heap_init (boot bytes) begin_addr end_addr
    RT_ALIGN_DOWN end_addr RT_ALIGN_SIZE =
        RT_ALIGN begin_addr RT_ALIGN_SIZE + h.mem_size_aligned + 32 ∧
      ∃ b : Blk, b.used = false ∧ Holds h [b] := by
  have hb8 : 8 ∣ RT_ALIGN begin_addr RT_ALIGN_SIZE := RT_ALIGN_eight_dvd begin_addr
  have he8 : 8 ∣ RT_ALIGN_DOWN end_addr RT_ALIGN_SIZE := RT_ALIGN_DOWN_eight_dvd end_addr
  have helt : RT_ALIGN_DOWN end_addr RT_ALIGN_SIZE < 2 ^ 32 := RT_ALIGN_DOWN_eight_lt end_addr
  generalize hmem : RT_ALIGN begin_addr RT_ALIGN_SIZE = mem at *
  generalize hlast : RT_ALIGN_DOWN end_addr RT_ALIGN_SIZE = last at *
  obtain ⟨hmin, hle⟩ := id hok
  rw [SIZEOF_STRUCT_MEM_eq] at hmin hle
  have hstop : last - mem - 2 * SIZEOF_STRUCT_MEM + SIZEOF_STRUCT_MEM = last - mem - 16 := by
    rw [SIZEOF_STRUCT_MEM_eq]
    omega
  have hlt : last - mem - 16 < 256 ^ 4 := by omega
  simp only [rt_system_heap_init_eq bytes hmem hlast hok hstop hlt, SIZEOF_STRUCT_MEM_eq]
  have hfirst : HeaderAt (lastHeader (firstHeader bytes mem (last - mem - 16))
      (mem + (last - mem - 16)) (last - mem - 16)) mem false (last - mem - 16) 0 :=
    (firstHeader_at hlt).congr (lastHeader_outside (by omega))
  have hsent : HeaderAt (lastHeader (firstHeader bytes mem (last - mem - 16))
      (mem + (last - mem - 16)) (last - mem - 16)) (mem + (last - mem - 16)) true
      (last - mem - 16) (last - mem - 16) := lastHeader_at hlt
  let b : Blk := ⟨last - mem - 16, false, by omega, by omega⟩
  refine ⟨by omega, b, rfl, ⟨⟨⟨hb8, ?_, ?_, ?_, ?_, hsent.used, ?_⟩, rfl, rfl, ?_⟩, ?_⟩⟩
  · show mem + (last - mem - 2 * 16) + 32 < 2 ^ 32
    omega
  · show mem + (last - mem - 16) = mem + (last - mem - 2 * 16 + 16)
    omega
  · show total [b] = last - mem - 2 * 16 + 16
    simp [b]
    omega
  · refine ⟨?_, trivial⟩
    simpa [b] using hfirst
  · refine hsent.next.trans ?_
    show last - mem - 16 = last - mem - 2 * 16 + 16
    omega
  · simp [b]
  · exact List.isChain_singleton b

end Start

/-! ### Runs -/

/-- An effect on the tiling, seen by the clients. -/
theorem Effect.tracks {w w' : World} {bs : List Blk} {dead got : Option Nat} (ht : Tracks w bs)
    (he : Effect w.heap bs dead got w'.heap) (hl : w'.live = settle w.live dead got) :
    ∃ bs', Tracks w' bs' := by
  obtain ⟨bs', hh, hlive⟩ := he.blocks
  refine ⟨bs', hh, fun p => ?_, ?_⟩
  · rw [hl, hlive, settle, List.mem_append, List.mem_filter, ht.live_iff, Option.mem_toList]
    simp only [decide_eq_true_eq]
    constructor
    · rintro (hp | hp)
      · exact Or.inr hp.symm
      · exact Or.inl hp
    · rintro (hp | hp)
      · exact Or.inr hp
      · exact Or.inl hp.symm
  · rw [hl, settle]
    cases got with
    | none => exact ht.live_nodup.filter _
    | some q =>
      refine List.nodup_cons.mpr ⟨fun hq => ?_, ht.live_nodup.filter _⟩
      obtain ⟨hq, hne⟩ := List.mem_filter.mp hq
      have := he.fresh q rfl ((ht.live_iff q).mp hq)
      simp [this] at hne

/-- Every valid call returns when the arena does not have room for exactly 8 bytes, and gives up
and returns the blocks it says. -/
theorem call_returns {w : World} {bs : List Blk} (ht : Tracks w bs) (h8 : w.heap.mem_size_aligned ≠ 8)
    (op : Op) (hv : op.Valid w) :
    Returns (fun fuel => op.call fuel w.heap) (w.heap.mem_size_aligned + 16)
      fun r => Effect w.heap bs (op.dead r.2) r.2 r.1 := by
  have hh := ht.holds
  cases op with
  | malloc size =>
    refine (rt_malloc_returns hh hv h8).weaken fun r hr => ?_
    rcases hr with ⟨rfl, -⟩ | ⟨o, -, hp, ha⟩
    · exact Effect.nothing hh
    · rw [hp]
      exact ha.effect
  | realloc rmem newsize =>
    exact rt_realloc_returns hh hv.2 h8 fun p hp => (ht.live_iff p).mp (hv.1 p hp)
  | calloc count size => exact rt_calloc_returns hh hv h8
  | free rmem =>
    cases rmem with
    | none => exact Returns.const (Effect.nothing hh)
    | some p =>
      obtain ⟨h', hrun, he⟩ := rt_free_effect hh ((ht.live_iff p).mp (hv p rfl))
      simp only [Op.call, hrun]
      exact Returns.const he
  | write addr value =>
    obtain ⟨p, hp, hlo, hhi⟩ := hv
    obtain ⟨o, ho, rfl⟩ := (ht.live_iff p).mp hp
    obtain ⟨pre, b, post, rfl, rfl, hb⟩ := usedStarts_split ho
    rw [areaEnd, SIZEOF_STRUCT_MEM_eq, Nat.add_sub_cancel,
      show w.heap.next _ = _ from hh.header.next] at hhi
    have hw : Holds (rt_memset w.heap addr value 1) (pre ++ b :: post) :=
      hh.userWrite fun lo hi hor => Bytes.fill_agreeOn (by omega)
    exact Returns.const ⟨⟨rfl, rfl⟩, ⟨_, hw, by simp [Op.dead, LivePtr, rt_memset]⟩, by simp⟩

/-- In an arena that does not have room for exactly 8 bytes, every reached state is tracked. -/
theorem reachable_tracks {bytes : Bytes} {begin_addr end_addr : Nat} {w : World}
    (hok : regionOk (RT_ALIGN begin_addr RT_ALIGN_SIZE) (RT_ALIGN_DOWN end_addr RT_ALIGN_SIZE))
    (h8 : RT_ALIGN_DOWN end_addr RT_ALIGN_SIZE ≠ RT_ALIGN begin_addr RT_ALIGN_SIZE + 40)
    (hr : (heapMachine bytes begin_addr end_addr).Reachable w) :
    (∃ bs, Tracks w bs) ∧ w.heap.mem_size_aligned ≠ 8 := by
  apply hr.invariant
  · rintro w rfl
    obtain ⟨hsize, b, hb, hh⟩ := rt_system_heap_init_spec bytes hok
    refine ⟨⟨[b], hh, fun p => ?_, List.nodup_nil⟩, fun hc => h8 ?_⟩
    · simp [LivePtr, usedStarts, hb]
    · dsimp only at hc hsize
      omega
  · intro w op w' _ ht hstep
    obtain ⟨⟨bs, ht⟩, hne⟩ := ht
    obtain ⟨hv, fuel, got, hcall, hlive⟩ := hstep
    have he : Effect w.heap bs (op.dead got) got w'.heap := (call_returns ht hne op hv).post hcall
    refine ⟨he.tracks ht hlive, ?_⟩
    rw [he.same.size]
    exact hne

/-- Without a live pointer a call returns nothing when `rt_malloc` returns nothing. -/
theorem call_none {h : Heap} {op : Op} {fuel : Nat} {r : Heap × Option Nat}
    (hmalloc : ∀ size r, rt_malloc fuel h size = some r → r = (h, none)) (hv : op.Valid ⟨h, []⟩)
    (hr : op.call fuel h = some r) : r = (h, none) := by
  cases op with
  | malloc size => exact hmalloc size r hr
  | realloc rmem newsize =>
    cases rmem with
    | some p => simpa using hv.1 p rfl
    | none =>
      rw [Op.call, rt_realloc] at hr
      split at hr
      · exact (Option.some.inj hr).symm
      · split at hr
        · exact (Option.some.inj hr).symm
        · exact hmalloc _ r hr
  | calloc count size =>
    rw [Op.call, rt_calloc] at hr
    obtain ⟨a, ha, hr⟩ := Option.bind_eq_some_iff.mp hr
    obtain rfl := hmalloc _ a ha
    exact (Option.some.inj hr).symm
  | free rmem =>
    cases rmem with
    | some p => simpa using hv p rfl
    | none => exact (Option.some.inj hr).symm
  | write addr value =>
    obtain ⟨p, hp, -⟩ := hv
    simp at hp

/-- In every accepted arena every reached state is tracked; without room for the minimum size no
pointer is live. -/
theorem reachable_tracked {bytes : Bytes} {begin_addr end_addr : Nat} {w : World}
    (hok : regionOk (RT_ALIGN begin_addr RT_ALIGN_SIZE) (RT_ALIGN_DOWN end_addr RT_ALIGN_SIZE))
    (hr : (heapMachine bytes begin_addr end_addr).Reachable w) :
    ∃ bs, Tracks w bs ∧ (w.heap.mem_size_aligned < 16 → w.live = []) := by
  apply hr.invariant
  · rintro w rfl
    obtain ⟨-, b, hb, hh⟩ := rt_system_heap_init_spec bytes hok
    exact ⟨[b], ⟨hh, fun p => by simp [LivePtr, usedStarts, hb], List.nodup_nil⟩, fun _ => rfl⟩
  · rintro ⟨h, live⟩ op ⟨h', live'⟩ _ ⟨bs, ht, hlive⟩ ⟨hv, fuel, got, hcall, hl⟩
    dsimp only at hlive hcall hl
    have hte := ht.holds.total_eq
    have htotal := align_dvd_total bs
    by_cases hmem : h.mem_size_aligned < 16
    · have hnil := hlive hmem
      subst hnil
      obtain ⟨rfl, rfl⟩ := Prod.mk.inj
        (call_none (fun size r => rt_malloc_none ht.holds hmem) hv hcall)
      obtain rfl : live' = [] := hl
      exact ⟨bs, ht, fun _ => rfl⟩
    · have he : Effect h bs (op.dead got) got h' :=
        (call_returns ht (show h.mem_size_aligned ≠ 8 by omega) op hv).post hcall
      have htracks : ∃ bs', Tracks ⟨h', live'⟩ bs' := Effect.tracks ht he hl
      obtain ⟨bs', ht'⟩ := htracks
      refine ⟨bs', ht', fun hc => absurd hc ?_⟩
      rw [show (World.mk h' live').heap = h' from rfl, he.same.size]
      exact hmem

/-! ### A region that is not accepted -/

/-- Without an arena no call allocates anything. -/
theorem boot_call {bytes : Bytes} (op : Op) (hv : op.Valid ⟨boot bytes, []⟩) (fuel : Nat) :
    op.call fuel (boot bytes) = some (boot bytes, none) := by
  have hmalloc : ∀ size, size ≤ 2 ^ 32 - 8 → rt_malloc fuel (boot bytes) size =
      some (boot bytes, none) := by
    intro size hsize
    have hal := RT_ALIGN_eight hsize
    rw [rt_malloc]
    by_cases hz : size = 0
    · rw [if_pos hz]
    · rw [if_neg hz]
      exact if_pos (show 0 < RT_ALIGN size 8 by omega)
  cases op with
  | malloc size => exact hmalloc size hv
  | realloc rmem newsize =>
    cases rmem with
    | some p => simpa using hv.1 p rfl
    | none =>
      have hal := RT_ALIGN_eight hv.2
      rw [Op.call, rt_realloc]
      by_cases hz : RT_ALIGN newsize RT_ALIGN_SIZE = 0
      · have hfit : ¬(boot bytes).mem_size_aligned < RT_ALIGN newsize RT_ALIGN_SIZE := by
          show ¬0 < RT_ALIGN newsize RT_ALIGN_SIZE
          omega
        rw [if_neg hfit, if_pos hz]
        rfl
      · exact if_pos (show 0 < RT_ALIGN newsize RT_ALIGN_SIZE by omega)
  | calloc count size =>
    rw [Op.call, rt_calloc, hmalloc _ hv]
    rfl
  | free rmem =>
    cases rmem with
    | some p => simpa using hv p rfl
    | none => rfl
  | write addr value =>
    obtain ⟨p, hp, -⟩ := hv
    simp at hp

theorem boot_invariant (bytes : Bytes) : HeapInvariant ⟨boot bytes, []⟩ [] := by
  constructor <;> simp [Visits, boot]

/-- Without an arena the state stays as it was. -/
theorem rejected_reachable {bytes : Bytes} {begin_addr end_addr : Nat} {w : World}
    (hok : ¬regionOk (RT_ALIGN begin_addr RT_ALIGN_SIZE) (RT_ALIGN_DOWN end_addr RT_ALIGN_SIZE))
    (hr : (heapMachine bytes begin_addr end_addr).Reachable w) : w = ⟨boot bytes, []⟩ := by
  have hinit : rt_system_heap_init (boot bytes) begin_addr end_addr = boot bytes := by
    unfold rt_system_heap_init
    dsimp only
    rw [if_neg hok]
  apply hr.invariant
  · intro w hw
    rw [← hinit]
    exact hw
  · rintro _ op w' - rfl ⟨hv, fuel, got, hcall, hlive⟩
    rw [boot_call op hv fuel] at hcall
    obtain ⟨hheap, rfl⟩ := Prod.mk.inj (Option.some.inj hcall)
    cases w'
    simp only at hheap hlive
    rw [hlive, ← hheap]
    rfl

theorem rejected_contract {bytes : Bytes} {begin_addr end_addr : Nat}
    (hok : ¬regionOk (RT_ALIGN begin_addr RT_ALIGN_SIZE) (RT_ALIGN_DOWN end_addr RT_ALIGN_SIZE)) :
    HeapContract bytes begin_addr end_addr := by
  intro w hr
  obtain rfl := rejected_reachable hok hr
  refine ⟨⟨[], boot_invariant bytes⟩, fun op hv => ?_⟩
  exact ⟨⟨boot bytes, settle [] (op.dead none) none⟩, hv, 0, none, boot_call op hv 0, rfl⟩

/-! ### An arena with room for 8 bytes -/

/-- The first `rt_malloc` of up to 8 bytes never returns. -/
theorem not_heapContract {bytes : Bytes} {begin_addr end_addr : Nat}
    (h8 : RT_ALIGN_DOWN end_addr RT_ALIGN_SIZE = RT_ALIGN begin_addr RT_ALIGN_SIZE + 40) :
    ¬HeapContract bytes begin_addr end_addr := by
  intro hc
  have hok : regionOk (RT_ALIGN begin_addr RT_ALIGN_SIZE)
      (RT_ALIGN_DOWN end_addr RT_ALIGN_SIZE) := by
    rw [regionOk, SIZEOF_STRUCT_MEM_eq]
    omega
  obtain ⟨hsize, b, hb, hh⟩ := rt_system_heap_init_spec bytes hok
  obtain ⟨-, hret⟩ := hc _ (Machine.Reachable.start rfl)
  obtain ⟨w', -, fuel, got, hcall, -⟩ := hret (.malloc 1) (show 1 ≤ 2 ^ 32 - 8 by decide)
  have hms : (rt_system_heap_init (boot bytes) begin_addr end_addr).mem_size_aligned = 8 := by
    omega
  rw [Op.call, rt_malloc_diverges hh (by decide) (by rw [hms]; decide) (by omega)] at hcall
  simp at hcall

/-- The allocator meets its contract on every region except those with 40 aligned bytes. -/
theorem heapContract_iff (bytes : Bytes) (begin_addr end_addr : Nat) :
    HeapContract bytes begin_addr end_addr ↔
      RT_ALIGN_DOWN end_addr RT_ALIGN_SIZE ≠ RT_ALIGN begin_addr RT_ALIGN_SIZE + 40 := by
  constructor
  · intro hc h8
    exact not_heapContract h8 hc
  · intro h8
    by_cases hok : regionOk (RT_ALIGN begin_addr RT_ALIGN_SIZE)
        (RT_ALIGN_DOWN end_addr RT_ALIGN_SIZE)
    · intro w hr
      obtain ⟨⟨bs, ht⟩, hne⟩ := reachable_tracks hok h8 hr
      refine ⟨⟨_, ht.heapInvariant⟩, fun op hv => ?_⟩
      obtain ⟨⟨h', got⟩, hcall⟩ := (call_returns ht hne op hv).total (Nat.lt_succ_self _)
      exact ⟨⟨h', settle w.live (op.dead got) got⟩, hv, _, got, hcall, rfl⟩
    · exact rejected_contract hok

theorem heapContract_fails_on_40_bytes : ¬HeapContract (fun _ => 0) 0x10000 0x10028 :=
  not_heapContract (by decide)

end Ab32Vg1.Kernel.Mem
