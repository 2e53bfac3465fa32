import Ab32Vg1.Finsh.HeapLists
import Ab32Vg1.ProofKit.Tiling

/-! How the memory represents a tiling of the arena by blocks, each in the list of its kind, and what
splitting a block, handing it over and joining it with its neighbours do to the tiling. -/

namespace Ab32Vg1.Finsh.Heap

open ProofKit ProofKit.Tiling Kernel

/-- A block of the heap: its header and its data. -/
abbrev Blk := Block 8 4

/-- The lists of `finsh_heap.c`, by the use flag of their blocks. -/
def lists (free_list allocate_list : Nat) (used : Bool) : Nat :=
  if used then allocate_list else free_list

/-- The blocks of a tiling have their sizes in their headers. -/
structure Sized (base : Nat) (m : Bytes) (bs : List Blk) : Prop where
  pos : 0 < base
  fits : base + FINSH_HEAP_MAX ≤ 2 ^ 32
  total_eq : total bs = FINSH_HEAP_MAX
  sizes : ∀ p b, (p, b) ∈ placed base bs → length m p + SIZEOF_HEADER = b.size

/-- The memory represents a tiling: each list has the blocks with its use flag. -/
structure Tiled (base : Nat) (m : Bytes) (list : Bool → Nat) (bs : List Blk) : Prop
    extends Sized base m bs where
  nodes : ∀ u, Leads (next m) (list u) (marked u base bs) 0

/-- A block between `pre` and `post` is in no list. -/
structure Taken (base : Nat) (m : Bytes) (list : Bool → Nat) (pre : List Blk) (b : Blk)
    (post : List Blk) : Prop extends Sized base m (pre ++ b :: post) where
  nodes : ∀ u, Leads (next m) (list u)
    (marked u base pre ++ marked u (base + total pre + b.size) post) 0

/-- The memory `m'` has the data of the used blocks of a tiling as `m` has it. -/
def KeepsData (base : Nat) (bs : List Blk) (m m' : Bytes) : Prop :=
  ∀ q b, (q, b) ∈ blocksOf true base bs → m.AgreeOn m' (q + 8) (q + b.size)

section

variable {base : Nat} {m m' : Bytes} {list : Bool → Nat} {bs pre post : List Blk} {b : Blk} {p q : Nat}

/-! ### Frames -/

theorem KeepsData.of_outside (h : ∀ i, (∀ x ∈ starts base bs, i < x ∨ x + 8 ≤ i) → m' i = m i) :
    KeepsData base bs m m' := by
  intro q b hq i h1 h2
  refine h i fun x hx => ?_
  have hroom := b.room_le
  have := starts_outside hx (mem_blocksOf.mp hq).1
  omega

theorem LinksOnly.keepsData {S : List Nat} (h : LinksOnly S m m') (hS : ∀ x ∈ S, x ∈ starts base bs) :
    KeepsData base bs m m' :=
  KeepsData.of_outside fun i hi => h i fun x hx => by
    have := hi x (hS x hx)
    omega

theorem KeepsData.refl (base : Nat) (bs : List Blk) (m : Bytes) : KeepsData base bs m m :=
  fun _ _ _ _ _ _ => rfl

theorem KeepsData.mono {bs1 : List Blk} (h : KeepsData base bs1 m m')
    (hsub : ∀ x ∈ blocksOf true base bs, x ∈ blocksOf true base bs1) : KeepsData base bs m m' :=
  fun q b hq => h q b (hsub (q, b) hq)

theorem KeepsData.trans {m1 : Bytes} (h1 : KeepsData base bs m m1) (h2 : KeepsData base bs m1 m') :
    KeepsData base bs m m' :=
  fun q b hq => (h1 q b hq).trans (h2 q b hq)

theorem Sized.spread (h : Sized base m bs) : Spread (starts base bs) where
  apart x hx y hy := starts_apart hx hy
  pos x hx := lt_of_lt_of_le h.pos (starts_le hx).1
  lt x hx := by
    have := h.fits
    have := (starts_le hx).2
    have := h.total_eq
    omega

theorem Sized.length_le (h : Sized base m bs) : bs.length ≤ FINSH_HEAP_MAX :=
  h.total_eq ▸ length_le_total (by decide) bs

theorem Sized.congr {bs' : List Blk} (h : Sized base m bs) (htotal : total bs' = total bs)
    (hsizes : ∀ p b, (p, b) ∈ placed base bs' → length m' p + SIZEOF_HEADER = b.size) :
    Sized base m' bs' :=
  ⟨h.pos, h.fits, htotal.trans h.total_eq, hsizes⟩

/-- Writing links keeps the sizes. -/
theorem Sized.linksOnly {S : List Nat} (h : Sized base m bs) (hl : LinksOnly S m m')
    (hS : ∀ x ∈ S, x ∈ starts base bs) : Sized base m' bs := by
  refine h.congr rfl fun p b hp => ?_
  have hpm : p ∈ starts base bs := List.mem_map.mpr ⟨(p, b), hp, rfl⟩
  rw [hl.length fun x hx => h.spread.apart x (hS x hx) p hpm]
  exact h.sizes p b hp

/-- Writing links of some headers keeps a list of others. -/
theorem leads_linksOnly {S xs : List Nat} {head : Nat} (h : Leads (next m) head xs 0)
    (hspread : Spread (starts base bs)) (hl : LinksOnly S m m') (hS : ∀ x ∈ S, x ∈ starts base bs)
    (hxs : ∀ x ∈ xs, x ∈ starts base bs) (hne : ∀ x ∈ xs, x ∉ S) : Leads (next m') head xs 0 := by
  refine h.congr fun x hx => hl.next (fun y hy => ?_) (hne x hx)
  exact hspread.apart y (hS y hy) x (hxs x hx)

theorem marked_length_le (u : Bool) (o : Nat) (bs : List Blk) : (marked u o bs).length ≤ bs.length := by
  have hplaced : ∀ o, (placed o bs).length = bs.length := by
    induction bs with
    | nil => exact fun _ => rfl
    | cons b bs ih => exact fun o => congrArg (· + 1) (ih (o + b.size))
  rw [marked, List.length_map, ← hplaced o]
  exact List.length_filter_le _ _

/-! ### Handing a block over -/

section Cut

/-- The headers of the blocks next to a block in the list of the flag `u`. -/
theorem mem_around {u : Bool} {x : Nat}
    (hx : x ∈ marked u base pre ++ marked u (base + total pre + b.size) post) :
    x ∈ starts base (pre ++ b :: post) ∧ x ≠ base + total pre := by
  have hroom := b.room_le
  rw [starts_append, List.mem_append]
  rcases List.mem_append.mp hx with hx | hx
  · have := marked_le hx
    exact ⟨Or.inl (marked_subset_starts hx), by omega⟩
  · have := marked_le hx
    refine ⟨Or.inr (List.mem_cons_of_mem _ (marked_subset_starts hx)), by omega⟩

theorem start_mem : base + total pre ∈ starts base (pre ++ b :: post) := by
  rw [starts_append]
  exact List.mem_append_right _ List.mem_cons_self

theorem header_mem {u : Bool} {x : Nat} (hx : x ∈ (base + total pre) :: marked u base pre) :
    x ∈ starts base (pre ++ b :: post) := by
  rcases List.mem_cons.mp hx with rfl | hx
  · exact start_mem
  · rw [starts_append]
    exact List.mem_append_left _ (marked_subset_starts hx)

theorem Sized.left_length {u : Bool} (h : Sized base m (pre ++ b :: post)) :
    (marked u base pre).length ≤ FINSH_HEAP_MAX := by
  have hlength := h.length_le
  rw [List.length_append] at hlength
  exact (marked_length_le u base pre).trans ((Nat.le_add_right _ _).trans hlength)

theorem marked_cut_self (u : Bool) (hb : b.used = u) :
    marked u base (pre ++ b :: post) =
      marked u base pre ++ (base + total pre) :: marked u (base + total pre + b.size) post := by
  rw [marked_append, marked_cons_self hb]

theorem marked_cut_other (u : Bool) (hb : b.used ≠ u) :
    marked u base (pre ++ b :: post) =
      marked u base pre ++ marked u (base + total pre + b.size) post := by
  rw [marked_append, marked_cons_other hb]

theorem sorted_cut (u : Bool) :
    (marked u base pre ++ (base + total pre) :: marked u (base + total pre + b.size) post).Pairwise
      (· < ·) := by
  have hsorted := marked_sorted (by decide) u base (pre ++ b.mark u :: post)
  rw [marked_cut_self u (b.mark_used u)] at hsorted
  exact hsorted

/-- The blocks of the two lists are different ones. -/
theorem marked_disjoint {u v : Bool} (huv : u ≠ v) {x : Nat} (hu : x ∈ marked u base bs) :
    x ∉ marked v base bs := by
  intro hv
  obtain ⟨a, ha, hau⟩ := mem_marked.mp hu
  obtain ⟨c, hc, hcv⟩ := mem_marked.mp hv
  have heq := placed_unique (by decide) ha hc
  exact huv (hau.symm.trans ((congrArg Block.used heq).trans hcv))

theorem not_mem_left {u v : Bool} (huv : u ≠ v) {x : Nat}
    (hx : x ∈ marked u base pre ++ marked u (base + total pre + b.size) post) :
    x ∉ marked v base pre := by
  intro hv
  rw [← b.mark_size v, ← marked_cut_other (b := b.mark v) u (Ne.symm huv)] at hx
  refine marked_disjoint huv hx ?_
  rw [marked_append]
  exact List.mem_append_left _ hv

end Cut

/-- A block is taken out of its list. -/
theorem Tiled.remove (h : Tiled base m list (pre ++ b :: post)) :
    Returns (fun k => finsh_block_remove k m (list b.used) (base + total pre)) FINSH_HEAP_MAX fun r =>
      Taken base r.1 (Function.update list b.used r.2) pre b post ∧
      LinksOnly ((base + total pre) :: marked b.used base pre) m r.1 := by
  have hnodes := h.nodes b.used
  rw [marked_cut_self b.used rfl] at hnodes
  have hlist : Spread (marked b.used base pre ++
      (base + total pre) :: marked b.used (base + total pre + b.size) post) := by
    refine h.spread.mono fun x hx => ?_
    rw [← marked_cut_self b.used rfl] at hx
    exact marked_subset_starts hx
  refine ((remove_returns hnodes hlist (sorted_cut b.used)).more h.left_length).weaken
    fun r hr => ?_
  obtain ⟨hleads, hlinks⟩ := hr
  refine ⟨⟨h.toSized.linksOnly hlinks fun _ => header_mem, fun u => ?_⟩, hlinks⟩
  by_cases hu : u = b.used
  · subst hu
    rw [Function.update_self]
    exact hleads
  · rw [Function.update_of_ne hu]
    have hother := h.nodes u
    rw [marked_cut_other u (Ne.symm hu)] at hother
    refine leads_linksOnly hother h.spread hlinks (fun _ => header_mem)
      (fun x hx => (mem_around hx).1) fun x hx hin => ?_
    rcases List.mem_cons.mp hin with rfl | hin
    · exact (mem_around hx).2 rfl
    · exact not_mem_left hu hx hin

/-- A block is put into the list of the flag `u`. -/
theorem Taken.insert (u : Bool) (h : Taken base m list pre b post)
    (hend : marked u (base + total pre + b.size) post = [] → next m (base + total pre) = 0) :
    Returns (fun k => finsh_block_insert k m (list u) (base + total pre)) FINSH_HEAP_MAX fun r =>
      Tiled base r.1 (Function.update list u r.2) (pre ++ b.mark u :: post) ∧
      LinksOnly ((base + total pre) :: marked u base pre) m r.1 := by
  have hlist : Spread (marked u base pre ++
      (base + total pre) :: marked u (base + total pre + b.size) post) := by
    refine h.spread.mono fun x hx => ?_
    rcases List.mem_append.mp hx with hx | hx
    · exact header_mem (List.mem_cons_of_mem _ hx)
    · rcases List.mem_cons.mp hx with rfl | hx
      · exact start_mem
      · exact (mem_around (List.mem_append_right _ hx)).1
  refine ((insert_returns (h.nodes u) hlist (sorted_cut u) hend).more h.left_length).weaken
    fun r hr => ?_
  obtain ⟨hleads, hlinks⟩ := hr
  have hsized : Sized base r.1 (pre ++ b.mark u :: post) := by
    have hkept := h.toSized.linksOnly hlinks fun _ => header_mem
    refine hkept.congr (by simp) fun q x hq => ?_
    obtain ⟨y, hy, hsize⟩ := placed_mark hq
    rw [← hsize]
    exact hkept.sizes q y hy
  refine ⟨⟨hsized, fun v => ?_⟩, hlinks⟩
  by_cases hv : v = u
  · subst hv
    rw [Function.update_self, marked_cut_self v (b.mark_used v)]
    exact hleads
  · rw [Function.update_of_ne hv, marked_cut_other v (fun hu => hv (hu.symm.trans (b.mark_used u))),
      Block.mark_size]
    refine leads_linksOnly (h.nodes v) h.spread hlinks (fun _ => header_mem)
      (fun x hx => (mem_around hx).1) fun x hx hin => ?_
    rcases List.mem_cons.mp hin with rfl | hin
    · exact (mem_around hx).2 rfl
    · exact not_mem_left hv hx hin

/-! ### Splitting and joining -/

/-- The blocks `mid` are replaced by blocks of the same size, through writes inside them. -/
theorem Tiled.replace (mid mid' : List Blk) (h : Tiled base m list (pre ++ (mid ++ post)))
    (htotal : total mid' = total mid)
    (hout : ∀ i, i < base + total pre ∨ base + total pre + total mid ≤ i → m' i = m i)
    (hsizes : ∀ x y, (x, y) ∈ placed (base + total pre) mid' → length m' x + 8 = y.size)
    (hlinks : ∀ u a c, Leads (next m) a (marked u (base + total pre) mid) c →
      Leads (next m') a (marked u (base + total pre) mid') c) :
    Tiled base m' list (pre ++ (mid' ++ post)) := by
  have hbelow {x lo : Nat} (hx : x ∈ starts base pre) (hlo : x ≤ lo) (hhi : lo + 4 ≤ x + 8) :
      m'.load lo 4 = m.load lo 4 := by
    have := starts_le hx
    exact Bytes.load_congr fun i h1 h2 => hout i (by omega)
  have habove {x lo : Nat} (hx : x ∈ starts (base + total pre + total mid) post) (hlo : x ≤ lo) :
      m'.load lo 4 = m.load lo 4 := by
    have := starts_le hx
    exact Bytes.load_congr fun i h1 h2 => hout i (by omega)
  have hsized : Sized base m' (pre ++ (mid' ++ post)) := by
    refine h.toSized.congr (by simp [htotal]) fun x y hx => ?_
    rw [placed_append, placed_append, List.mem_append, List.mem_append, htotal] at hx
    have hold := h.sizes x y
    rw [placed_append, placed_append, List.mem_append, List.mem_append] at hold
    rcases hx with hx | hx | hx
    · have hmem : x ∈ starts base pre := List.mem_map.mpr ⟨(x, y), hx, rfl⟩
      exact (congrArg (· + 8) (hbelow hmem (le_refl x) (by omega))).trans (hold (Or.inl hx))
    · exact hsizes x y hx
    · have hmem : x ∈ starts (base + total pre + total mid) post := List.mem_map.mpr ⟨(x, y), hx, rfl⟩
      exact (congrArg (· + 8) (habove hmem (le_refl x))).trans (hold (Or.inr (Or.inr hx)))
  refine ⟨hsized, fun u => ?_⟩
  have hnodes := h.nodes u
  rw [marked_append, marked_append] at hnodes ⊢
  obtain ⟨a, hpre, hrest⟩ := Leads.append.mp hnodes
  obtain ⟨c, hmid, hpost⟩ := Leads.append.mp hrest
  refine Leads.append.mpr ⟨a, hpre.congr fun x hx => ?_,
    Leads.append.mpr ⟨c, hlinks u a c hmid, ?_⟩⟩
  · exact hbelow (marked_subset_starts hx) (by omega) (by omega)
  · rw [htotal]
    exact hpost.congr fun x hx => habove (marked_subset_starts hx) (by omega)

/-- The two headers behind a split. -/
structure IsSplit (m : Bytes) (p size : Nat) (m' : Bytes) : Prop where
  only : ∀ i, (i < p ∨ p + 8 ≤ i) → (i < p + 8 + size ∨ p + 8 + size + 8 ≤ i) → m' i = m i
  length_left : length m' p = size
  next_left : next m' p = p + 8 + size
  length_right : length m' (p + 8 + size) = length m p - 8 - size
  next_right : next m' (p + 8 + size) = next m p

theorem split_isSplit {size : Nat} (hsize : size + 8 ≤ length m p) (hlt : p + 8 + size < 2 ^ 32) :
    IsSplit m p size (finsh_block_split m p size) := by
  have hlen := length_lt m p
  have hpq : Apart 8 p (p + 8 + size) := Or.inr (Or.inl (by omega))
  have hself : Apart 8 p p := Apart.refl 8 p
  have hselfq := Apart.refl 8 (p + 8 + size)
  have hv : sub32 (sub32 (length m p) 8) size = length m p - 8 - size := by
    rw [sub32_of_le hlen (by omega), sub32_of_le (by omega) (by omega)]
  unfold finsh_block_split
  simp only [SIZEOF_HEADER_eq, hv]
  constructor
  · intro i hp hq
    unfold setNext setLength
    rw [Bytes.store_outside (by omega), Bytes.store_outside (by omega),
      Bytes.store_outside (by omega), Bytes.store_outside (by omega)]
  · rw [length_setNext hself, length_setNext hpq.symm, length_setLength_self (by omega)]
  · exact next_setNext_self hlt
  · rw [length_setNext hpq, length_setNext hselfq]
    unfold setLength length at *
    rw [Bytes.load_store_of_disjoint (by omega), Bytes.load_store_of_lt (by omega)]
  · have hmid : next (setLength (setLength m (p + 8 + size) (length m p - 8 - size)) p size) p =
        next m p := by rw [next_setLength hself, next_setLength hpq.symm]
    rw [hmid]
    unfold setNext next at *
    rw [Bytes.load_store_of_disjoint (by omega), Bytes.load_store_of_lt (Bytes.load_lt m (p + 4) 4)]

/-- A free block is cut in two free blocks. -/
theorem Tiled.split {size : Nat} {c d : Blk} (h : Tiled base m list (pre ++ b :: post))
    (hb : b.used = false) (hc : c.used = false) (hd : d.used = false) (hcsize : c.size = size + 8)
    (hdsize : c.size + d.size = b.size) (hs : IsSplit m (base + total pre) size m') :
    Tiled base m' list (pre ++ c :: d :: post) := by
  have hlength : length m (base + total pre) + 8 = b.size :=
    h.sizes _ b (mem_placed.mpr ⟨pre, post, rfl, rfl⟩)
  have hdroom := d.room_le
  have hq : base + total pre + c.size = base + total pre + 8 + size := by omega
  refine Tiled.replace [b] [c, d] h (by simp [hdsize]) (fun i hi => ?_)
    (fun x y hx => ?_) fun u a e hlinks => ?_
  · rw [total_cons, total_nil] at hi
    exact hs.only i (by omega) (by omega)
  · simp only [placed, List.mem_cons, Prod.mk.injEq, List.not_mem_nil, or_false] at hx
    rcases hx with ⟨rfl, rfl⟩ | ⟨rfl, rfl⟩
    · rw [hs.length_left, hcsize]
    · rw [hq, hs.length_right]
      omega
  · cases u with
    | true =>
      rw [marked_eq_nil (by simp [hb])] at hlinks
      rw [marked_eq_nil (by simp [hc, hd])]
      exact hlinks
    | false =>
      rw [marked_cons_self hb] at hlinks
      obtain ⟨rfl, hnext⟩ := hlinks
      rw [marked_cons_self hc, marked_cons_self hd, hq]
      refine ⟨rfl, hs.next_left, ?_⟩
      rw [hs.next_right]
      exact hnext

/-- Free blocks `a :: mid` become one free block `j`. -/
theorem Tiled.join {mid : List Blk} {a j : Blk}
    (h : Tiled base m list (pre ++ (a :: mid ++ post))) (hfree : ∀ x ∈ a :: mid, x.used = false)
    (hj : j.used = false) (hjsize : j.size = total (a :: mid))
    (hout : ∀ i, i < base + total pre ∨ base + total pre + 8 ≤ i → m' i = m i)
    (hlength : length m' (base + total pre) + 8 = j.size)
    (htail : ∀ e, Leads (next m) (base + total pre) (marked false (base + total pre) (a :: mid)) e →
      next m' (base + total pre) = e) :
    Tiled base m' list (pre ++ j :: post) := by
  have haroom := a.room_le
  refine Tiled.replace (a :: mid) [j] h (by simp [hjsize]) (fun i hi => ?_)
    (fun x y hx => ?_) fun u c e hlinks => ?_
  · rw [total_cons] at hi
    exact hout i (by omega)
  · simp only [placed, List.mem_cons, Prod.mk.injEq, List.not_mem_nil, or_false] at hx
    obtain ⟨rfl, rfl⟩ := hx
    exact hlength
  · cases u with
    | true =>
      rw [marked_eq_nil fun x hx => by simp [hfree x hx]] at hlinks
      rw [marked_eq_nil (by simp [hj])]
      exact hlinks
    | false =>
      have hc : c = base + total pre := by
        rw [marked_cons_self (hfree a List.mem_cons_self)] at hlinks
        exact hlinks.1
      rw [marked_cons_self hj]
      exact ⟨hc, htail e (hc ▸ hlinks)⟩

end

end Ab32Vg1.Finsh.Heap
