import Ab32Vg1.Finsh.HeapAlloc
import Ab32Vg1.ProofKit.Transition

/-! Runs of the shell's heap: any sequence of requests, releases of allocated blocks, collections and
writes to allocated blocks, with any variables at each of them. -/

namespace Ab32Vg1.Finsh.Heap

open ProofKit ProofKit.Tiling Kernel

/-- Where the array `finsh_heap` lies. -/
structure Arena where
  finsh_heap : Nat
  pos : 0 < finsh_heap
  fits : finsh_heap + FINSH_HEAP_MAX ≤ 2 ^ 32

/-! ### The invariant on the lists -/

/-- The list that starts at `list` has the block of the header `p`. -/
def OnList (m : Bytes) (list p : Nat) : Prop :=
  ∃ xs, Leads (next m) list xs 0 ∧ 0 ∉ xs ∧ p ∈ xs

def IsFree (h : Heap) (p : Nat) : Prop := OnList h.bytes h.free_list p

def IsAllocated (h : Heap) (p : Nat) : Prop := OnList h.bytes h.allocate_list p

/-- Blocks with the headers `ps` fill the memory from `lo` up to `hi`. -/
def Fills (m : Bytes) : (lo hi : Nat) → (ps : List Nat) → Prop
  | lo, hi, [] => lo = hi
  | lo, hi, p :: ps => p = lo ∧ Fills m (behind m p) hi ps

/-- The blocks of the heap and those of its two lists. -/
structure HeapInvariant (a : Arena) (h : Heap) (blocks frees allocs : List Nat) : Prop where
  free_list : Leads (next h.bytes) h.free_list frees 0
  allocate_list : Leads (next h.bytes) h.allocate_list allocs 0
  free_ordered : frees.Pairwise (· < ·)
  allocate_ordered : allocs.Pairwise (· < ·)
  fills : Fills h.bytes a.finsh_heap (a.finsh_heap + FINSH_HEAP_MAX) blocks
  not_null : 0 ∉ blocks
  listed : ∀ p, p ∈ blocks ↔ p ∈ frees ∨ p ∈ allocs
  disjoint : ∀ p ∈ frees, p ∉ allocs
  top_free : ∃ p ∈ blocks.getLast?, p ∈ frees
  not_adjacent : ∀ p ∈ frees, behind h.bytes p ∉ frees

/-! ### Operations -/

inductive Op where
  | allocate (vars : Variables) (size : Nat)
  | free (ptr : Nat)
  | gc (vars : Variables)
  | write (addr : Nat) (value : UInt8)

/-- The rounding of a size does not wrap, only allocated blocks are freed, and writes stay in the data
of an allocated block. -/
def Op.Valid (h : Heap) : Op → Prop
  | .allocate _ size => size + 12 ≤ 2 ^ 32
  | .free ptr => ∃ p, IsAllocated h p ∧ ptr = finsh_block_get_data p
  | .gc _ => True
  | .write addr _ => ∃ p, IsAllocated h p ∧ finsh_block_get_data p ≤ addr ∧ addr < behind h.bytes p

def Op.run (fuel : Nat) (h : Heap) : Op → Option Heap
  | .allocate vars size => (finsh_heap_allocate fuel vars h size).map (·.1)
  | .free ptr => finsh_heap_free fuel h ptr
  | .gc vars => finsh_heap_gc fuel vars h
  | .write addr value => some { h with bytes := h.bytes.fill addr value 1 }

/-- The heap from its initialisation on, in a memory with any contents. -/
def machine (a : Arena) (bytes : Bytes) : Machine Heap Op where
  start h := h = finsh_heap_init a.finsh_heap bytes
  step h op h' := op.Valid h ∧ ∃ fuel, op.run fuel h = some h'

/-- The data of the block at `p` has the size asked for, and its block overlaps no other one. -/
structure Granted (h : Heap) (size p : Nat) : Prop where
  allocated : IsAllocated h p
  room : size ≤ length h.bytes p
  disjoint : ∀ q, IsAllocated h q → q ≠ p → behind h.bytes q ≤ p ∨ behind h.bytes p ≤ q

/-- How a request for `size` bytes is answered. -/
def Answered (fuel : Nat) (vars : Variables) (h : Heap) (size : Nat) (h' : Heap) (ptr : Nat) : Prop :=
  (ptr ≠ 0 → ∃ p, ptr = finsh_block_get_data p ∧ Granted h' size p) ∧
  (ptr = 0 → finsh_heap_gc fuel vars h = some h' ∧
    ∀ q, IsFree h' q → length h'.bytes q < HEAP_ALIGN_SIZE size + SIZEOF_HEADER)

/-- The contract of the heap: in every reached state the invariant holds, every valid operation
returns, and every valid request is answered as it should be. -/
def HeapContract (a : Arena) (bytes : Bytes) : Prop :=
  ∀ h, (machine a bytes).Reachable h →
    (∃ blocks frees allocs, HeapInvariant a h blocks frees allocs) ∧
    (∀ op : Op, op.Valid h → ∃ h', (machine a bytes).step h op h') ∧
    ∀ fuel vars size h' ptr, (Op.allocate vars size).Valid h →
      finsh_heap_allocate fuel vars h size = some (h', ptr) → Answered fuel vars h size h' ptr

/-! ### From the tiling to the lists -/

section

variable {a : Arena} {base : Nat} {h h' : Heap} {m : Bytes} {bs : List Blk} {b : Blk} {p size : Nat}

theorem Holds.zero_not_mem (hh : Holds base h bs) (u : Bool) : 0 ∉ marked u base bs := by
  intro hmem
  have := (marked_le hmem).1
  have := hh.pos
  omega

theorem Holds.onList_iff (hh : Holds base h bs) {u : Bool} :
    OnList h.bytes (lists h.free_list h.allocate_list u) p ↔ p ∈ marked u base bs := by
  constructor
  · rintro ⟨xs, hxs, h0, hp⟩
    rw [(hh.nodes u).unique hxs (hh.zero_not_mem u) h0]
    exact hp
  · exact fun hp => ⟨_, hh.nodes u, hh.zero_not_mem u, hp⟩

theorem Holds.isFree_iff (hh : Holds base h bs) : IsFree h p ↔ p ∈ marked false base bs :=
  hh.onList_iff (u := false)

theorem Holds.isAllocated_iff (hh : Holds base h bs) : IsAllocated h p ↔ p ∈ marked true base bs :=
  hh.onList_iff (u := true)

theorem Sized.fills {pre post : List Blk} (h : Sized base m (pre ++ post)) :
    Fills m (base + total pre) (base + FINSH_HEAP_MAX) (starts (base + total pre) post) := by
  induction post generalizing pre with
  | nil =>
    have htotal := h.total_eq
    rw [List.append_nil] at htotal
    exact congrArg (base + ·) htotal
  | cons b post ih =>
    refine ⟨rfl, ?_⟩
    have hcut : pre ++ b :: post = (pre ++ [b]) ++ post := by simp
    have hrest := ih (hcut ▸ h)
    rw [total_append, total_cons, total_nil, Nat.add_zero, ← Nat.add_assoc] at hrest
    rw [h.behind (mem_placed.mpr ⟨pre, post, rfl, rfl⟩)]
    exact hrest

theorem Holds.invariant (hh : Holds a.finsh_heap h bs) :
    HeapInvariant a h (starts a.finsh_heap bs) (marked false a.finsh_heap bs)
      (marked true a.finsh_heap bs) where
  free_list := hh.free_leads
  allocate_list := hh.alloc_leads
  free_ordered := marked_sorted (by decide) _ _ _
  allocate_ordered := marked_sorted (by decide) _ _ _
  fills := (show Sized a.finsh_heap h.bytes ([] ++ bs) from hh.toSized).fills
  not_null := hh.spread.zero_not_mem
  listed p := by
    constructor
    · intro hp
      obtain ⟨⟨q, b⟩, hq, rfl⟩ := List.mem_map.mp hp
      cases hb : b.used with
      | false => exact Or.inl (mem_marked.mpr ⟨b, hq, hb⟩)
      | true => exact Or.inr (mem_marked.mpr ⟨b, hq, hb⟩)
    · rintro (hp | hp) <;> exact marked_subset_starts hp
  disjoint p := marked_disjoint (by decide)
  top_free := by
    obtain ⟨b, hb, hfree⟩ := hh.last_free
    obtain ⟨pre, rfl⟩ := List.getLast?_eq_some_iff.mp hb
    refine ⟨a.finsh_heap + total pre, ?_, ?_⟩
    · rw [starts_append]
      simp [starts, placed]
    · rw [marked_append, marked_cons_self hfree]
      simp
  not_adjacent p hp hnext := by
    obtain ⟨b, hb, hfree⟩ := mem_marked.mp hp
    rw [hh.behind hb] at hnext
    obtain ⟨c, hc, hcfree⟩ := mem_marked.mp hnext
    have hused := hh.coalesced.behind_used (by decide) hb hfree hc
    rw [hcfree] at hused
    cases hused

/-! ### Steps -/

theorem init_holds (a : Arena) (bytes : Bytes) :
    ∃ bs, Holds a.finsh_heap (finsh_heap_init a.finsh_heap bytes) bs := by
  let b : Blk := ⟨FINSH_HEAP_MAX, false, by decide, by decide⟩
  have hself := Apart.refl 8 a.finsh_heap
  refine ⟨[b], ⟨⟨⟨a.pos, a.fits, rfl, fun p x hx => ?_⟩, fun u => ?_⟩, List.isChain_singleton b,
    LastFree.singleton.mpr rfl⟩⟩
  · obtain ⟨rfl, rfl⟩ := Prod.mk.inj (List.mem_singleton.mp hx)
    unfold finsh_heap_init
    dsimp only
    rw [length_setNext hself, length_setLength_self (by decide)]
    rfl
  · cases u with
    | true => rfl
    | false => exact ⟨rfl, next_setNext_self (by decide)⟩

/-- A write to the data of a used block. -/
theorem Holds.write {addr : Nat} {value : UInt8} (hh : Holds base h bs)
    (hp : (p, b) ∈ placed base bs) (hlo : p + 8 ≤ addr) (hhi : addr < p + b.size) :
    Holds base { h with bytes := h.bytes.fill addr value 1 } bs where
  toTiled := hh.toTiled.congr_bytes fun x hx => by
    have := starts_outside hx hp
    exact Bytes.fill_agreeOn (by omega)
  coalesced := hh.coalesced
  last_free := hh.last_free

theorem Allocated.holds {vars : Variables} {ptr : Nat} {bs' : List Blk}
    (h : Allocated base vars size h bs h' ptr bs') : Holds base h' bs' := by
  cases h with
  | found hp hsize ho => exact ho.holds
  | collected hfull hc hp hsize ho => exact ho.holds
  | full hfull hc hnone => exact hc.1

/-- A block that is allocated has a place among the used ones. -/
theorem Holds.allocated_block (hh : Holds base h bs) (hp : IsAllocated h p) :
    ∃ b, (p, b) ∈ blocksOf true base bs := by
  obtain ⟨b, hb⟩ := mem_marked.mp (hh.isAllocated_iff.mp hp)
  exact ⟨b, mem_blocksOf.mpr hb⟩

/-- What one operation preserves, and that it returns. -/
theorem Holds.run (hh : Holds base h bs) (op : Op) (hv : op.Valid h) :
    Returns (fun k => op.run k h) FINSH_HEAP_MAX fun h' => ∃ bs', Holds base h' bs' := by
  cases op with
  | allocate vars size =>
    exact (hh.allocate vars hv).map fun r hr => hr.imp fun bs' ha => ha.holds
  | free ptr =>
    obtain ⟨p, hp, rfl⟩ := hv
    obtain ⟨b, hb⟩ := hh.allocated_block hp
    exact (hh.free hb).weaken fun h' hr => hr.imp fun bs' hf => hf.1
  | gc vars => exact (hh.gc vars).weaken fun h' hr => hr.imp fun bs' hc => hc.1
  | write addr value =>
    obtain ⟨p, hp, hlo, hhi⟩ := hv
    obtain ⟨b, hb⟩ := hh.allocated_block hp
    have hplaced := (mem_blocksOf.mp hb).1
    rw [hh.behind hplaced] at hhi
    exact Returns.const ⟨bs, hh.write hplaced hlo hhi⟩

theorem reachable_holds {bytes : Bytes} (hr : (machine a bytes).Reachable h) :
    ∃ bs, Holds a.finsh_heap h bs := by
  refine hr.invariant (P := fun h => ∃ bs, Holds a.finsh_heap h bs) (fun h0 hstart => ?_)
    fun s op s' _ hs hstep => ?_
  · exact hstart ▸ init_holds a bytes
  · obtain ⟨bs, hh⟩ := hs
    obtain ⟨hv, fuel, hrun⟩ := hstep
    exact (hh.run op hv).post hrun

/-- The block that a request gets. -/
theorem Occupied.granted {bs' : List Blk} {n : Nat} (ho : Occupied base n h bs p h' bs')
    (hn : size ≤ n) : Granted h' size p := by
  obtain ⟨c, hc, hblocks⟩ := ho.blocks
  have hmem : (p, c) ∈ blocksOf true base bs' := (hblocks (p, c)).mpr (Or.inl rfl)
  have hplaced := (mem_blocksOf.mp hmem).1
  have hlength := ho.holds.sizes p c hplaced
  rw [SIZEOF_HEADER_eq] at hlength
  refine ⟨ho.holds.isAllocated_iff.mpr (List.mem_map_of_mem hmem), by omega, fun q hq hne => ?_⟩
  obtain ⟨x, hx⟩ := ho.holds.allocated_block hq
  have hqplaced := (mem_blocksOf.mp hx).1
  rw [ho.holds.behind hqplaced, ho.holds.behind hplaced]
  exact placed_disjoint hqplaced hplaced hne

/-- A request that gets no block returns the heap as the collection left it. -/
theorem allocate_null {fuel : Nat} {vars : Variables}
    (hrun : finsh_heap_allocate fuel vars h size = some (h', 0)) :
    finsh_heap_gc fuel vars h = some h' := by
  have hoccupy (h1 : Heap) (r n : Nat) : occupy fuel h1 r n ≠ some (h', 0) := by
    intro heq
    simp only [occupy, Option.bind_eq_bind, Option.bind_eq_some_iff, Option.pure_def,
      Option.some.injEq, Prod.mk.injEq] at heq
    obtain ⟨-, -, -, -, -, hdata⟩ := heq
    exact absurd hdata (Nat.succ_ne_zero _)
  simp only [finsh_heap_allocate, Option.bind_eq_bind, Option.bind_eq_some_iff] at hrun
  obtain ⟨r, -, hrun⟩ := hrun
  split at hrun
  · obtain ⟨h1, hgc, hrun⟩ := Option.bind_eq_some_iff.mp hrun
    obtain ⟨r, -, hrun⟩ := Option.bind_eq_some_iff.mp hrun
    split at hrun
    · obtain ⟨rfl, -⟩ := Prod.mk.inj (Option.some.inj hrun)
      exact hgc
    · exact absurd hrun (hoccupy _ _ _)
  · exact absurd hrun (hoccupy _ _ _)

/-- The answer to a request. -/
theorem Holds.answered {fuel ptr : Nat} {vars : Variables} (hh : Holds base h bs)
    (hs : size + 12 ≤ 2 ^ 32) (hrun : finsh_heap_allocate fuel vars h size = some (h', ptr)) :
    Answered fuel vars h size h' ptr := by
  obtain ⟨bs', ha⟩ := (hh.allocate vars hs).post hrun
  dsimp only at ha
  have hround : size ≤ (size + 3) / 4 * 4 := by omega
  refine ⟨fun hptr => ?_, fun hptr => ⟨allocate_null (hptr ▸ hrun), fun q hq => ?_⟩⟩
  · cases ha with
    | found hp hsize ho => exact ⟨_, rfl, ho.granted hround⟩
    | collected hfull hc hp hsize ho => exact ⟨_, rfl, ho.granted hround⟩
    | full hfull hc hnone => exact absurd rfl hptr
  · rw [HEAP_ALIGN_SIZE_eq hs, SIZEOF_HEADER_eq]
    obtain ⟨x, hx, hfree⟩ := mem_marked.mp (ha.holds.isFree_iff.mp hq)
    have hlength := ha.holds.sizes q x hx
    rw [SIZEOF_HEADER_eq] at hlength
    cases ha with
    | found hp hsize ho => exact absurd hptr (Nat.succ_ne_zero _)
    | collected hfull hc hp hsize ho => exact absurd hptr (Nat.succ_ne_zero _)
    | full hfull hc hnone =>
      have := hnone q x (mem_blocksOf.mpr ⟨hx, hfree⟩)
      omega

/-- The heap keeps its contract, wherever its array lies. -/
theorem finsh_heap_contract (a : Arena) (bytes : Bytes) : HeapContract a bytes := by
  intro h hr
  obtain ⟨bs, hh⟩ := reachable_holds hr
  refine ⟨⟨_, _, _, hh.invariant⟩, fun op hv => ?_, fun fuel vars size h' ptr hv hrun =>
    hh.answered hv hrun⟩
  obtain ⟨h', hrun⟩ := (hh.run op hv).total (Nat.lt_succ_self FINSH_HEAP_MAX)
  exact ⟨h', hv, FINSH_HEAP_MAX + 1, hrun⟩

end

end Ab32Vg1.Finsh.Heap
