import Ab32Vg1.Finsh.HeapOps

/-! What collecting and allocating do to the tiling of the heap. -/

namespace Ab32Vg1.Finsh.Heap

open ProofKit ProofKit.Tiling Kernel

section

variable {base : Nat} {h : Heap} {bs : List Blk} {b : Blk} {p size : Nat} {vars : Variables}

/-! ### Collecting -/

/-- What a collection leaves: the used blocks whose data a variable holds. -/
def Collected (base : Nat) (vars : Variables) (h : Heap) (bs : List Blk) (h' : Heap)
    (bs' : List Blk) : Prop :=
  Holds base h' bs' ∧
    blocksOf true base bs' =
      (blocksOf true base bs).filter (fun x => Referenced vars (finsh_block_get_data x.1)) ∧
    KeepsData base bs' h.bytes h'.bytes

theorem Holds.alloc_leads (hh : Holds base h bs) :
    Leads (next h.bytes) h.allocate_list (marked true base bs) 0 := hh.nodes true

theorem Holds.free_leads (hh : Holds base h bs) :
    Leads (next h.bytes) h.free_list (marked false base bs) 0 := hh.nodes false

/-- The loop of the collector, with the blocks `kept` behind it and `rest` before it. -/
theorem gcLoop_collected {kept rest : List (Nat × Blk)} {fuel n header : Nat} (hh : Holds base h bs)
    (hblocks : blocksOf true base bs = kept ++ rest)
    (hkept : ∀ x ∈ kept, Referenced vars (finsh_block_get_data x.1))
    (hheader : Leads (next h.bytes) header (rest.map Prod.fst) 0) :
    (∀ h', gcLoop fuel vars n h header = some h' → ∃ bs', Collected base vars h bs h' bs') ∧
    (FINSH_HEAP_MAX < fuel → rest.length < n → ∃ h', gcLoop fuel vars n h header = some h') := by
  induction rest generalizing h bs kept n header with
  | nil =>
    have hnull : header = 0 := hheader
    have hsame : Collected base vars h bs h bs := by
      refine ⟨hh, ?_, KeepsData.refl _ _ _⟩
      rw [hblocks, List.append_nil, List.filter_eq_self.mpr fun x hx => decide_eq_true (hkept x hx)]
    cases n with
    | zero => exact ⟨fun _ hr => by simp [gcLoop] at hr, fun _ hn => absurd hn (Nat.not_lt_zero _)⟩
    | succ n =>
      have hrun : gcLoop fuel vars (n + 1) h header = some h := by rw [gcLoop, if_pos hnull]
      exact ⟨fun h' hr => ⟨bs, Option.some.inj (hrun.symm.trans hr) ▸ hsame⟩, fun _ _ => ⟨h, hrun⟩⟩
  | cons x rest ih =>
    obtain ⟨rfl, hnext⟩ := hheader
    have hmem : (x.1, x.2) ∈ blocksOf true base bs := by
      rw [hblocks]
      simp
    have hpos : x.1 ≠ 0 := by
      have := (marked_le (List.mem_map_of_mem (f := Prod.fst) hmem)).1
      have := hh.pos
      dsimp only at *
      omega
    cases n with
    | zero => exact ⟨fun _ hr => by simp [gcLoop] at hr, fun _ hn => absurd hn (Nat.not_lt_zero _)⟩
    | succ n =>
      by_cases href : Referenced vars (finsh_block_get_data x.1)
      · have hrun : gcLoop fuel vars (n + 1) h x.1 = gcLoop fuel vars n h (next h.bytes x.1) := by
          rw [gcLoop, if_neg hpos]
          exact if_pos href
        have hcut : blocksOf true base bs = (kept ++ [x]) ++ rest := by simp [hblocks]
        have hrest := ih (n := n) hh hcut (fun y hy => by
          rcases List.mem_append.mp hy with hy | hy
          · exact hkept y hy
          · exact List.mem_singleton.mp hy ▸ href) hnext
        rw [hrun]
        exact ⟨hrest.1, fun hf hn => hrest.2 hf (by simpa using hn)⟩
      · have hrun : gcLoop fuel vars (n + 1) h x.1 =
            (finsh_heap_free fuel h (finsh_block_get_data x.1)).bind fun h1 =>
              gcLoop fuel vars n h1 (next h.bytes x.1) := by
          rw [gcLoop, if_neg hpos]
          exact if_neg href
        have hfree := hh.free hmem
        have hfilter : (blocksOf true base bs).filter (·.1 ≠ x.1) = kept ++ rest :=
          blocksOf_filter_ne (by decide) hblocks
        have hstep {h1 : Heap} {bs1 : List Blk} (hh1 : Holds base h1 bs1)
            (hb1 : blocksOf true base bs1 = (blocksOf true base bs).filter (·.1 ≠ x.1)) :
            Leads (next h1.bytes) (next h.bytes x.1) (rest.map Prod.fst) 0 := by
          have hleads := hh1.alloc_leads
          rw [marked, hb1, hfilter, List.map_append] at hleads
          obtain ⟨mid, -, htail⟩ := Leads.append.mp hleads
          rw [hnext.head_unique htail]
          exact htail
        rw [hrun]
        constructor
        · intro h' hr
          obtain ⟨h1, hh1, hr⟩ := Option.bind_eq_some_iff.mp hr
          obtain ⟨bs1, hholds, hb1, hkeeps⟩ := hfree.post hh1
          obtain ⟨bs', hh', hb', hkeeps'⟩ := (ih hholds (hb1.trans hfilter) hkept
            (hstep hholds hb1)).1 h' hr
          refine ⟨bs', hh', ?_, ?_⟩
          · rw [hb', hb1, hfilter, hblocks, List.filter_append, List.filter_append,
              List.filter_cons_of_neg (by simpa using href)]
          · refine (hkeeps.mono fun y hy => ?_).trans hkeeps'
            rw [hb'] at hy
            exact (List.mem_filter.mp hy).1
        · intro hf hn
          obtain ⟨h1, hh1⟩ := hfree.total hf
          obtain ⟨bs1, hholds, hb1, -⟩ := hfree.post hh1
          obtain ⟨h', hr⟩ := (ih (n := n) hholds (hb1.trans hfilter) hkept (hstep hholds hb1)).2 hf
            (by simpa using hn)
          exact ⟨h', by rw [hh1]; exact hr⟩

theorem Holds.blocks_length (hh : Holds base h bs) (u : Bool) :
    (blocksOf u base bs).length ≤ FINSH_HEAP_MAX := by
  have hlength := marked_length_le u base bs
  rw [marked, List.length_map] at hlength
  exact hlength.trans hh.length_le

theorem Holds.gc (vars : Variables) (hh : Holds base h bs) :
    Returns (fun k => finsh_heap_gc k vars h) FINSH_HEAP_MAX fun h' =>
      ∃ bs', Collected base vars h bs h' bs' where
  post {fuel h'} hr :=
    (gcLoop_collected hh (show blocksOf true base bs = [] ++ _ from rfl) (by simp)
      hh.alloc_leads).1 h' hr
  total {fuel} hfuel :=
    (gcLoop_collected hh (show blocksOf true base bs = [] ++ _ from rfl) (by simp)
      hh.alloc_leads).2 hfuel (lt_of_le_of_lt (hh.blocks_length true) hfuel)

/-! ### Allocating -/

/-- What the use of a free block leaves: one more used block, of the size and cleared. -/
structure Occupied (base size : Nat) (h : Heap) (bs : List Blk) (p : Nat) (h' : Heap)
    (bs' : List Blk) : Prop where
  holds : Holds base h' bs'
  blocks : ∃ c, c.size = size + 8 ∧ ∀ x, x ∈ blocksOf true base bs' ↔
    x = (p, c) ∨ x ∈ blocksOf true base bs
  keeps : KeepsData base bs h.bytes h'.bytes
  clear : h'.bytes.range (p + 8) size = List.replicate size 0

theorem Tiled.congr_bytes {m m' : Bytes} {list : Bool → Nat} (h : Tiled base m list bs)
    (hm : ∀ x ∈ starts base bs, m.AgreeOn m' x (x + 8)) : Tiled base m' list bs where
  toSized := h.toSized.congr rfl fun q x hq => by
    have hmem : q ∈ starts base bs := List.mem_map.mpr ⟨(q, x), hq, rfl⟩
    rw [← h.sizes q x hq, length, length, Bytes.load_congr ((hm q hmem).mono le_rfl (by omega))]
  nodes u := (h.nodes u).congr fun q hq =>
    Bytes.load_congr ((hm q (marked_subset_starts hq)).mono (by omega) le_rfl)

/-- Filling the data of a block touches no header. -/
theorem fill_headers {m : Bytes} {x n : Nat} {v : UInt8} (hp : (p, b) ∈ placed base bs)
    (hn : n + 8 ≤ b.size) (hx : x ∈ starts base bs) :
    m.AgreeOn (m.fill (p + 8) v n) x (x + 8) := by
  have := starts_outside hx hp
  exact Bytes.fill_agreeOn (by omega)

/-- The cleared link of a block in no list. -/
theorem Taken.setNext {m : Bytes} {list : Bool → Nat} {pre post : List Blk}
    (h : Taken base m list pre b post) :
    Taken base (setNext m (base + total pre) 0) list pre b post := by
  have hlinks : LinksOnly [base + total pre] m (Heap.setNext m (base + total pre) 0) :=
    LinksOnly.setNext List.mem_cons_self
  have hmem : ∀ x ∈ [base + total pre], x ∈ starts base (pre ++ b :: post) := by
    intro x hx
    exact List.mem_singleton.mp hx ▸ start_mem
  refine ⟨h.toSized.linksOnly hlinks hmem, fun u => ?_⟩
  exact leads_linksOnly (h.nodes u) h.spread hlinks hmem (fun x hx => (mem_around hx).1) fun x hx hin =>
    (mem_around hx).2 (List.mem_singleton.mp hin)

theorem lastFree_split {pre post : List Blk} {c d : Blk} (h : LastFree (pre ++ b :: post))
    (hd : d.used = false) : LastFree (pre ++ c :: d :: post) := by
  rw [LastFree.append_cons] at h ⊢
  rw [LastFree.cons_cons]
  cases post with
  | nil => exact LastFree.singleton.mpr hd
  | cons e post => exact LastFree.cons_cons.mpr (LastFree.cons_cons.mp h)

/-- The blocks in use when a free block is cut and its front is used. -/
theorem blocksOf_occupy {pre post : List Blk} {c d : Blk} (hb : b.used = false) (hc : c.used = true)
    (hd : d.used = false) (hsize : c.size + d.size = b.size) (x : Nat × Blk) :
    x ∈ blocksOf true base (pre ++ c :: d :: post) ↔
      x = (base + total pre, c) ∨ x ∈ blocksOf true base (pre ++ b :: post) := by
  rw [blocksOf_append, blocksOf_append, blocksOf_cons_self hc, blocksOf_cons_other (by simp [hd]),
    blocksOf_cons_other (b := b) (by simp [hb]), Nat.add_assoc _ c.size, hsize]
  simp only [List.mem_append, List.mem_cons]
  exact or_left_comm

/-- Writes inside a free block keep the data of the used ones. -/
theorem KeepsData.of_inside {m m' : Bytes} (hp : (p, b) ∈ blocksOf false base bs)
    (hm : ∀ i, i < p ∨ p + b.size ≤ i → m' i = m i) : KeepsData base bs m m' := by
  intro q x hq i h1 h2
  obtain ⟨hqp, hx⟩ := mem_blocksOf.mp hq
  obtain ⟨hpp, hb⟩ := mem_blocksOf.mp hp
  have hne : p ≠ q := by
    rintro rfl
    have heq := placed_unique (by decide) hpp hqp
    rw [← heq, hb] at hx
    cases hx
  have := placed_disjoint hpp hqp hne
  exact hm i (by omega)

theorem Holds.occupy (hh : Holds base h bs) (hp : (p, b) ∈ blocksOf false base bs)
    (halign : 4 ∣ size) (hsize : size + 16 ≤ b.size) :
    Returns (fun k => occupy k h p size) FINSH_HEAP_MAX fun r =>
      r.2 = finsh_block_get_data p ∧ ∃ bs', Occupied base size h bs p r.1 bs' := by
  obtain ⟨hplaced, hb⟩ := mem_blocksOf.mp hp
  obtain ⟨pre, post, rfl, rfl⟩ := mem_placed.mp hplaced
  have hdvd := b.align_dvd
  let c : Blk := ⟨size + 8, false, Nat.le_add_left 8 size, by omega⟩
  let d : Blk := ⟨b.size - size - 8, false, by omega, by omega⟩
  have hcd : c.size + d.size = b.size := by simp only [c, d]; omega
  have hlength := hh.length_eq
  have hlt := (placed_le hplaced).2
  have htotal := hh.total_eq
  have hfits := hh.fits
  rw [FINSH_HEAP_MAX_eq] at htotal hfits
  have hsplit : IsSplit h.bytes (base + total pre) size _ := split_isSplit (by omega) (by omega)
  have htiled := hh.toTiled.split (c := c) (d := d) hb rfl rfl rfl hcd hsplit
  have hbytes (k : Nat) : Heap.occupy k h (base + total pre) size =
      (finsh_block_remove k (finsh_block_split h.bytes (base + total pre) size) h.free_list
        (base + total pre)).bind fun r =>
        (finsh_block_insert k (Heap.setNext r.1 (base + total pre) 0) h.allocate_list
          (base + total pre)).bind fun s =>
          some ({ bytes := s.1.fill (base + total pre + 8) 0 size, free_list := r.2,
                  allocate_list := s.2 }, base + total pre + 8) := rfl
  refine Returns.congr (htiled.remove.bind fun r hr => ?_) hbytes
  obtain ⟨htaken, hlinks1⟩ := hr
  have hinsert := htaken.setNext.insert true fun _ => next_setNext_self (by decide)
  rw [Function.update_of_ne (by simp [c])] at hinsert
  refine hinsert.bind fun s hs => Returns.const ⟨rfl, pre ++ c.mark true :: d :: post, ?_⟩
  obtain ⟨htiled', hlinks2⟩ := hs
  have hlists : Function.update (Function.update (lists h.free_list h.allocate_list) c.used r.2) true
      s.2 = lists r.2 s.2 := by
    funext u
    cases u <;> rfl
  rw [hlists] at htiled'
  have hblocks := @blocksOf_occupy base b pre post (c.mark true) d hb rfl rfl hcd
  have hinside : (base + total pre, c.mark true) ∈ placed base (pre ++ c.mark true :: d :: post) :=
    mem_placed.mpr ⟨pre, d :: post, rfl, rfl⟩
  have hright := hh.coalesced.right
  constructor
  · refine ⟨htiled'.congr_bytes fun x hx => fill_headers hinside (le_refl _) hx, ?_,
      lastFree_split hh.last_free rfl⟩
    exact hh.coalesced.left.insert_used (hright.tail.cons_free (hright.head_used hb)) rfl
  · exact ⟨c.mark true, rfl, hblocks⟩
  · have hkeeps1 : KeepsData base (pre ++ b :: post) h.bytes
        (finsh_block_split h.bytes (base + total pre) size) :=
      KeepsData.of_inside hp fun i hi => hsplit.only i (by omega) (by omega)
    have hsub : ∀ x ∈ blocksOf true base (pre ++ b :: post),
        x ∈ blocksOf true base (pre ++ c.mark true :: d :: post) :=
      fun x hx => (hblocks x).mpr (Or.inr hx)
    have hstart : ∀ {u x}, x ∈ (base + total pre) :: marked u base pre →
      x ∈ starts base (pre ++ c.mark true :: d :: post) := header_mem
    have hkeeps2 := (hlinks1.keepsData fun _ => hstart).mono hsub
    have hkeeps3 := ((LinksOnly.setNext (m := r.1) (v := 0) List.mem_cons_self).keepsData
      (S := [base + total pre]) fun x hx => List.mem_singleton.mp hx ▸ start_mem).mono hsub
    have hkeeps4 := (hlinks2.keepsData fun _ => hstart).mono hsub
    have hkeeps5 : KeepsData base (pre ++ b :: post) s.1 (s.1.fill (base + total pre + 8) 0 size) :=
      KeepsData.of_inside hp fun i hi => Bytes.fill_agreeOn (by omega) i (le_refl i) (Nat.lt_succ_self i)
    exact (((hkeeps1.trans hkeeps2).trans hkeeps3).trans hkeeps4).trans hkeeps5
  · exact Bytes.range_fill 0

/-! ### The searches -/

/-- A request is rounded up to whole words, without wrapping. -/
theorem HEAP_ALIGN_SIZE_eq (h : size + 12 ≤ 2 ^ 32) : HEAP_ALIGN_SIZE size = (size + 3) / 4 * 4 := by
  have hsum : (size + HEAP_ALIGNMENT - 1) % 2 ^ 32 = size + 3 := by
    rw [HEAP_ALIGNMENT]
    omega
  rw [HEAP_ALIGN_SIZE, hsum]
  exact land_mask (k := 2) (by omega) (by decide)

/-- A search in the free list finds a block that passes its test, or none does. -/
theorem Holds.search (hh : Holds base h bs) (test : Nat → Nat → Prop) [∀ n k, Decidable (test n k)]
    (need : Nat) :
    Returns (fun k => seek (next h.bytes) (fun header => ¬(header ≠ 0 ∧ test (length h.bytes header) need))
      k h.free_list) FINSH_HEAP_MAX fun r =>
      (r = 0 ∧ ∀ q x, (q, x) ∈ blocksOf false base bs → test (x.size - 8) need) ∨
      (r ≠ 0 ∧ ∃ x, (r, x) ∈ blocksOf false base bs ∧ ¬test (x.size - 8) need) := by
  have hlength : (marked false base bs).length ≤ FINSH_HEAP_MAX :=
    (marked_length_le false base bs).trans hh.length_le
  have hpos := hh.pos
  have hsize {q : Nat} {x : Blk} (hq : (q, x) ∈ blocksOf false base bs) :
      q ≠ 0 ∧ length h.bytes q = x.size - 8 := by
    have hplaced := (mem_blocksOf.mp hq).1
    have := (placed_le hplaced).1
    have := hh.sizes q x hplaced
    rw [SIZEOF_HEADER_eq] at this
    omega
  refine ((hh.free_leads.seek_mem (by simp)).more hlength).weaken fun r hr => ?_
  rcases hr with ⟨hr, hnone⟩ | ⟨hr, hstop⟩
  · refine Or.inl ⟨hr, fun q x hq => ?_⟩
    obtain ⟨hq0, hlen⟩ := hsize hq
    have hgo := not_not.mp (hnone q (List.mem_map_of_mem hq))
    exact hlen ▸ hgo.2
  · obtain ⟨⟨q, x⟩, hq, rfl⟩ := List.mem_map.mp hr
    obtain ⟨hq0, hlen⟩ := hsize hq
    refine Or.inr ⟨hq0, x, hq, fun htest => hstop ⟨hq0, ?_⟩⟩
    dsimp only
    rw [hlen]
    exact htest

/-- How an allocation of `size` bytes ends: in a free block that leaves some of it, behind a collection
in a block that may be used up, or behind a collection with nothing. -/
inductive Allocated (base : Nat) (vars : Variables) (size : Nat) (h : Heap) (bs : List Blk) :
    Heap → Nat → List Blk → Prop
  | found {p b h' bs'} (hp : (p, b) ∈ blocksOf false base bs) (hsize : size + 16 < b.size)
    (ho : Occupied base size h bs p h' bs') : Allocated base vars size h bs h' (p + 8) bs'
  | collected {h1 bs1 p b h' bs'}
    (hfull : ∀ q x, (q, x) ∈ blocksOf false base bs → x.size ≤ size + 16)
    (hc : Collected base vars h bs h1 bs1) (hp : (p, b) ∈ blocksOf false base bs1)
    (hsize : size + 16 ≤ b.size) (ho : Occupied base size h1 bs1 p h' bs') :
    Allocated base vars size h bs h' (p + 8) bs'
  | full {h' bs'} (hfull : ∀ q x, (q, x) ∈ blocksOf false base bs → x.size ≤ size + 16)
    (hc : Collected base vars h bs h' bs')
    (hnone : ∀ q x, (q, x) ∈ blocksOf false base bs' → x.size < size + 16) :
    Allocated base vars size h bs h' 0 bs'

theorem Holds.allocate (vars : Variables) (hh : Holds base h bs) (hs : size + 12 ≤ 2 ^ 32) :
    Returns (fun k => finsh_heap_allocate k vars h size) FINSH_HEAP_MAX fun r =>
      ∃ bs', Allocated base vars ((size + 3) / 4 * 4) h bs r.1 r.2 bs' := by
  have halign : 4 ∣ (size + 3) / 4 * 4 := Dvd.intro_left _ rfl
  have hneed : add32 ((size + 3) / 4 * 4) SIZEOF_HEADER = (size + 3) / 4 * 4 + 8 := by
    rw [SIZEOF_HEADER_eq]
    exact add32_of_lt (by omega)
  have hbytes (k : Nat) : finsh_heap_allocate k vars h size =
      (findLarger k h ((size + 3) / 4 * 4)).bind fun r =>
        if r = 0 then
          (finsh_heap_gc k vars h).bind fun h1 => (findFit k h1 ((size + 3) / 4 * 4)).bind fun r =>
            if r = 0 then some (h1, 0) else Heap.occupy k h1 r ((size + 3) / 4 * 4)
        else Heap.occupy k h r ((size + 3) / 4 * 4) := by
    rw [finsh_heap_allocate, HEAP_ALIGN_SIZE_eq hs]
    rfl
  refine Returns.congr (Returns.bind (P := fun r =>
    (r = 0 ∧ ∀ q x, (q, x) ∈ blocksOf false base bs → x.size - 8 ≤ (size + 3) / 4 * 4 + 8) ∨
    (r ≠ 0 ∧ ∃ x, (r, x) ∈ blocksOf false base bs ∧ ¬x.size - 8 ≤ (size + 3) / 4 * 4 + 8)) ?_
    fun r hr => ?_) hbytes
  · rw [← hneed]
    exact hh.search (· ≤ ·) _
  · rcases hr with ⟨rfl, hfull⟩ | ⟨hr0, x, hx, hlarge⟩
    · simp only [if_true]
      refine (hh.gc vars).bind fun h1 hc => ?_
      obtain ⟨bs1, hc⟩ := hc
      have hfull' : ∀ q x, (q, x) ∈ blocksOf false base bs → x.size ≤ (size + 3) / 4 * 4 + 16 :=
        fun q x hq => by
          have := hfull q x hq
          omega
      have hfit := hc.1.search (· < ·) ((size + 3) / 4 * 4 + 8)
      refine Returns.bind (hneed ▸ hfit) fun r hr => ?_
      rcases hr with ⟨rfl, hnone⟩ | ⟨hr0, x, hx, hlarge⟩
      · simp only [if_true]
        refine Returns.const ⟨bs1, Allocated.full hfull' hc fun q x hq => ?_⟩
        have := hnone q x hq
        have := x.room_le
        omega
      · simp only [if_neg hr0]
        refine (hc.1.occupy hx halign (by omega)).weaken fun r hr => ?_
        obtain ⟨hdata, bs', ho⟩ := hr
        exact ⟨bs', hdata ▸ Allocated.collected hfull' hc hx (by omega) ho⟩
    · simp only [if_neg hr0]
      refine (hh.occupy hx halign (by omega)).weaken fun r hr => ?_
      obtain ⟨hdata, bs', ho⟩ := hr
      exact ⟨bs', hdata ▸ Allocated.found hx (by omega) ho⟩

end

end Ab32Vg1.Finsh.Heap
