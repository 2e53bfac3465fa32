import Ab32Vg1.Finsh.HeapBlocks

/-! What freeing, collecting and allocating do to the tiling of the heap. -/

namespace Ab32Vg1.Finsh.Heap

open ProofKit ProofKit.Tiling Kernel

/-- The state of the allocator between operations. -/
structure Holds (base : Nat) (h : Heap) (bs : List Blk) : Prop
    extends Tiled base h.bytes (lists h.free_list h.allocate_list) bs where
  coalesced : Coalesced bs
  last_free : LastFree bs

section

variable {base : Nat} {m m' : Bytes} {list : Bool → Nat} {bs pre post : List Blk} {b : Blk} {p q : Nat}

/-! ### Merging -/

/-- What merging leaves of a tiling: one without free neighbours that has the same used blocks. -/
def Merged (base : Nat) (list : Bool → Nat) (bs : List Blk) (m m' : Bytes) : Prop :=
  ∃ bs', Tiled base m' list bs' ∧ Coalesced bs' ∧ LastFree bs' ∧
    blocksOf true base bs' = blocksOf true base bs ∧ KeepsData base bs m m'

theorem total_room {xs : List Blk} {a : Blk} : 8 ≤ total (a :: xs) := by
  have := a.room_le
  rw [total_cons]
  omega

/-- The header of the block at `p` written again. -/
theorem header_written {v w : Nat} (hv : v < 2 ^ 32) (hw : w < 2 ^ 32) :
    length (setNext (setLength m p v) p w) p = v ∧ next (setNext (setLength m p v) p w) p = w ∧
      ∀ i, i < p ∨ p + 8 ≤ i → setNext (setLength m p v) p w i = m i := by
  refine ⟨?_, next_setNext_self hw, fun i hi => ?_⟩
  · rw [length_setNext (Apart.refl 8 p), length_setLength_self hv]
  · unfold setNext setLength
    rw [Bytes.store_outside (by omega), Bytes.store_outside (by omega)]

/-- The link of another header is read before or after the length is written. -/
theorem absorb_eq {v : Nat} (h : Apart 8 p q) :
    absorb m p v q = setNext (setLength m p v) p (next m q) := by
  rw [absorb, next_setLength h]

/-- Free blocks between used ones are merged by writing the header of the first. -/
theorem Tiled.merged (mid : List Blk) {a : Blk} {v w : Nat}
    (h : Tiled base m list (pre ++ (a :: mid ++ post))) (hfree : ∀ x ∈ a :: mid, x.used = false)
    (hpre : Coalesced pre) (hpost : Coalesced post) (hlast : ∀ x ∈ pre.getLast?, x.used = true)
    (hhead : ∀ x ∈ post.head?, x.used = true) (hfinal : LastFree (pre ++ (a :: mid ++ post)))
    (hv : v + 8 = total (a :: mid)) (hw : w < 2 ^ 32)
    (htail : ∀ e, Leads (next m) (base + total pre) (marked false (base + total pre) (a :: mid)) e →
      w = e) :
    Merged base list (pre ++ (a :: mid ++ post)) m
      (setNext (setLength m (base + total pre) v) (base + total pre) w) := by
  have htotal := h.total_eq
  rw [total_append, total_append, FINSH_HEAP_MAX_eq] at htotal
  obtain ⟨hlength, hnext, hout⟩ := @header_written m (base + total pre) v w (by omega) hw
  let j : Blk := ⟨total (a :: mid), false, total_room, align_dvd_total _⟩
  have hroom := a.room_le
  have hstart : base + total pre ∈ starts base (pre ++ (a :: mid ++ post)) := start_mem
  refine ⟨pre ++ j :: post, ?_, hpre.insert_free hpost hlast hhead, hfinal.replace rfl, ?_, ?_⟩
  · refine h.join hfree rfl rfl hout ?_ fun e he => ?_
    · rw [hlength, hv]
    · rw [hnext]
      exact htail e he
  · have hnone : blocksOf true (base + total pre) (a :: mid) = [] :=
      blocksOf_eq_nil fun x hx => by simp [hfree x hx]
    rw [blocksOf_append, blocksOf_append, blocksOf_append, hnone,
      blocksOf_cons_other (b := j) (by simp [j])]
    rfl
  · exact KeepsData.of_outside fun i hi => hout i (hi _ hstart)

/-- The free block before the block at `base + total pre`, or `NULL`. -/
def Prev (base : Nat) (pre : List Blk) (r : Nat) : Prop :=
  (r = 0 ∧ marked false base pre = []) ∨ ∃ xs, marked false base pre = xs ++ [r]

theorem prev_returns (h : Tiled base m list (pre ++ b :: post)) (hb : b.used = false) :
    Returns (fun k => if list false = base + total pre then some 0
      else findPrev k m (list false) (base + total pre)) FINSH_HEAP_MAX (Prev base pre) := by
  have hnodes := h.nodes false
  rw [marked_cut_self false hb] at hnodes
  have hsorted := @sorted_cut base pre post b false
  rcases List.eq_nil_or_concat' (marked false base pre) with hnil | ⟨xs, x, hxs⟩
  · rw [hnil] at hnodes
    exact (Returns.const (P := Prev base pre) (Or.inl ⟨rfl, hnil⟩)).congr fun k => if_pos hnodes.1
  · have hspread : Spread (marked false base (pre ++ b :: post)) :=
      h.spread.mono fun _ => marked_subset_starts
    have hmax : xs.length ≤ FINSH_HEAP_MAX := by
      have hlength := h.left_length (u := false)
      rw [hxs, List.length_append] at hlength
      omega
    rw [marked_cut_self false hb, hxs, List.append_assoc, List.singleton_append] at hspread
    rw [hxs, List.append_assoc, List.singleton_append] at hnodes hsorted
    have hne : list false ≠ base + total pre := by
      obtain ⟨-, htail, hbefore⟩ := List.pairwise_append.mp hsorted
      obtain ⟨hsearch, -⟩ := Leads.cut.mp hnodes
      cases xs with
      | nil => exact hsearch ▸ Nat.ne_of_lt ((List.pairwise_cons.mp htail).1 _ List.mem_cons_self)
      | cons y xs => exact hsearch.1 ▸ Nat.ne_of_lt (hbefore y List.mem_cons_self _ (by simp))
    refine (((findPrev_returns hnodes hspread (hsorted.imp Nat.ne_of_lt)).more hmax).weaken
      fun r hr => Or.inr ⟨xs, hr ▸ hxs⟩).congr fun k => if_neg hne

/-- The address behind a block. -/
theorem Sized.behind (h : Sized base m bs) (hp : (p, b) ∈ placed base bs) :
    behind m p = p + b.size := by
  have := h.sizes p b hp
  rw [SIZEOF_HEADER_eq] at this
  rw [Heap.behind, SIZEOF_HEADER_eq]
  omega

/-- The block before joins when it is free. -/
theorem left_joins {r : Nat} (h : Sized base m (pre ++ b :: post)) (hr : Prev base pre r) :
    (r ≠ 0 ∧ behind m r = base + total pre) ↔
      ∃ pre' a, pre = pre' ++ [a] ∧ a.used = false ∧ r = base + total pre' := by
  have hpos := h.pos
  constructor
  · rintro ⟨hr0, hbehind⟩
    have hmem : r ∈ marked false base pre := by
      rcases hr with ⟨hr', -⟩ | ⟨xs, hxs⟩
      · exact absurd hr' hr0
      · rw [hxs]
        simp
    obtain ⟨a, ha, hfree⟩ := mem_marked.mp hmem
    have hin : (r, a) ∈ placed base (pre ++ b :: post) := by
      rw [placed_append]
      exact List.mem_append_left _ ha
    rw [h.behind hin] at hbehind
    obtain ⟨pre', rest, rfl, rfl⟩ := mem_placed.mp ha
    cases rest with
    | nil => exact ⟨pre', a, rfl, hfree, rfl⟩
    | cons c rest =>
      have := c.room_le
      simp only [total_append, total_cons] at hbehind
      omega
  · rintro ⟨pre', a, rfl, hfree, rfl⟩
    refine ⟨by omega, ?_⟩
    have hin : (base + total pre', a) ∈ placed base (pre' ++ [a] ++ b :: post) :=
      mem_placed.mpr ⟨pre', b :: post, by simp, rfl⟩
    rw [h.behind hin]
    simp [Nat.add_assoc]

/-- The block behind joins when it is free. -/
theorem right_joins (h : Tiled base m list (pre ++ b :: post)) (hb : b.used = false) :
    (next m (base + total pre) ≠ 0 ∧ behind m (base + total pre) = next m (base + total pre)) ↔
      ∃ c post', post = c :: post' ∧ c.used = false := by
  have hpos := h.pos
  have hnodes := h.nodes false
  rw [marked_cut_self false hb] at hnodes
  obtain ⟨-, hrest⟩ := Leads.cut.mp hnodes
  rw [h.behind (mem_placed.mpr ⟨pre, post, rfl, rfl⟩)]
  constructor
  · rintro ⟨hn0, hbehind⟩
    have hne : marked false (base + total pre + b.size) post ≠ [] := fun hnil => by
      rw [hnil] at hrest
      exact hn0 hrest
    obtain ⟨c, hc, hfree⟩ := mem_marked.mp (hbehind ▸ hrest.head_mem hne)
    obtain ⟨as, post', rfl, hoff⟩ := mem_placed.mp hc
    cases as with
    | nil => exact ⟨c, post', rfl, hfree⟩
    | cons a as =>
      have := a.room_le
      rw [total_cons] at hoff
      omega
  · rintro ⟨c, post', rfl, hfree⟩
    rw [marked_cons_self hfree] at hrest
    have := b.room_le
    exact ⟨by rw [hrest.1]; omega, hrest.1.symm⟩

theorem Sized.length_eq (h : Sized base m (pre ++ b :: post)) :
    length m (base + total pre) + 8 = b.size := h.sizes _ b (mem_placed.mpr ⟨pre, post, rfl, rfl⟩)

/-- The link of a free block before a free one. -/
theorem next_of_joins {c : Blk} (h : Tiled base m list (pre ++ b :: c :: post)) (hb : b.used = false)
    (hc : c.used = false) : next m (base + total pre) = base + total pre + b.size := by
  have hnodes := h.nodes false
  rw [marked_cut_self false hb, marked_cons_self hc] at hnodes
  exact (Leads.cut.mp hnodes).2.1

/-- The last link of neighbours that are free leads out of them. -/
theorem leads_last (mid : List Blk) {o e : Nat} (hfree : ∀ x ∈ mid ++ [b], x.used = false)
    (h : Leads (next m) o (marked false o (mid ++ [b])) e) : next m (o + total mid) = e := by
  have hb : b.used = false := hfree b (by simp)
  rw [marked_append, marked_cons_self hb] at h
  obtain ⟨-, hlast⟩ := Leads.cut.mp h
  exact hlast

theorem head_of_not_joins (h : ¬∃ c post', post = c :: post' ∧ c.used = false) :
    ∀ x ∈ post.head?, x.used = true := by
  intro x hx
  obtain ⟨post', rfl⟩ := List.head?_eq_some_iff.mp hx
  exact Bool.of_not_eq_false fun hfree => h ⟨x, post', rfl, hfree⟩

theorem last_of_not_joins {r : Nat} (hr : Prev base pre r)
    (h : ¬∃ pre' a, pre = pre' ++ [a] ∧ a.used = false ∧ r = base + total pre') :
    ∀ x ∈ pre.getLast?, x.used = true := by
  intro x hx
  obtain ⟨pre', rfl⟩ := List.getLast?_eq_some_iff.mp hx
  refine Bool.of_not_eq_false fun hfree => h ⟨pre', x, rfl, hfree, ?_⟩
  rcases hr with ⟨-, hnil⟩ | ⟨xs, hxs⟩
  · rw [marked_append, marked_cons_self hfree] at hnil
    exact absurd hnil (by simp)
  · rw [marked_append, marked_cons_self hfree] at hxs
    exact (List.cons.inj (List.append_inj' hxs rfl).2).1.symm

section Neighbours

variable {a c : Blk}

theorem length_second (h : Sized base m (pre ++ a :: b :: post)) :
    length m (base + total pre + a.size) + 8 = b.size := by
  have hin := h.sizes (base + total (pre ++ [a])) b (mem_placed.mpr ⟨pre ++ [a], post, by simp, rfl⟩)
  simpa [Nat.add_assoc] using hin

theorem length_third (h : Sized base m (pre ++ a :: b :: c :: post)) :
    length m (base + total pre + a.size + b.size) + 8 = c.size := by
  have hcut : pre ++ a :: b :: c :: post = (pre ++ [a]) ++ b :: c :: post := by simp
  rw [hcut] at h
  have hsecond := length_second h
  simpa [Nat.add_assoc] using hsecond

/-- "merge three node" -/
theorem Tiled.merge_both (h : Tiled base m list (pre ++ a :: b :: c :: post)) (ha : a.used = false)
    (hb : b.used = false) (hc : c.used = false) (hpre : Coalesced pre) (hpost : Coalesced post)
    (hlast : ∀ x ∈ pre.getLast?, x.used = true) (hhead : ∀ x ∈ post.head?, x.used = true)
    (hfinal : LastFree (pre ++ a :: b :: c :: post)) (hp : p = base + total pre + a.size)
    (hl : base + total pre ≠ 0 ∧ behind m (base + total pre) = p)
    (hj : next m p ≠ 0 ∧ behind m p = next m p) :
    Merged base list (pre ++ a :: b :: c :: post) m (mergeWith m (base + total pre) p) := by
  have hrun : mergeWith m (base + total pre) p = _ := (if_pos hl).trans (if_pos hj)
  have hnext : next m p = p + b.size := by
    have hcut : pre ++ a :: b :: c :: post = (pre ++ [a]) ++ b :: c :: post := by simp
    have hlink := next_of_joins (hcut ▸ h) hb hc
    rw [total_append, total_cons, total_nil, ← Nat.add_assoc] at hlink
    simpa [hp] using hlink
  have haroom := a.room_le
  have hapart : Apart 8 (base + total pre) (p + b.size) := Or.inr (Or.inl (by omega))
  have halength := h.length_eq
  have hblength := length_second h.toSized
  have hclength := length_third h.toSized
  rw [hrun, hnext, absorb_eq hapart]
  refine h.merged [b, c] (a := a) (by simp [ha, hb, hc]) hpre hpost hlast hhead hfinal ?_
    (next_lt m _) fun e he => ?_
  · subst hp
    simp only [total_cons, total_nil, SIZEOF_HEADER_eq]
    omega
  · have hlink := leads_last [a, b] (b := c) (by simp [ha, hb, hc]) he
    simpa [hp, Nat.add_assoc] using hlink

theorem Tiled.merge_left (h : Tiled base m list (pre ++ a :: b :: post)) (ha : a.used = false)
    (hb : b.used = false) (hpre : Coalesced pre) (hpost : Coalesced post)
    (hlast : ∀ x ∈ pre.getLast?, x.used = true) (hhead : ∀ x ∈ post.head?, x.used = true)
    (hfinal : LastFree (pre ++ a :: b :: post)) (hp : p = base + total pre + a.size)
    (hl : base + total pre ≠ 0 ∧ behind m (base + total pre) = p)
    (hj : ¬(next m p ≠ 0 ∧ behind m p = next m p)) :
    Merged base list (pre ++ a :: b :: post) m (mergeWith m (base + total pre) p) := by
  have hrun : mergeWith m (base + total pre) p = _ := (if_pos hl).trans (if_neg hj)
  have haroom := a.room_le
  have hapart : Apart 8 (base + total pre) p := Or.inr (Or.inl (by omega))
  have halength := h.length_eq
  have hblength := length_second h.toSized
  rw [hrun, absorb_eq hapart]
  refine h.merged [b] (a := a) (by simp [ha, hb]) hpre hpost hlast hhead hfinal ?_
    (next_lt m p) fun e he => ?_
  · subst hp
    simp only [total_cons, total_nil, SIZEOF_HEADER_eq]
    omega
  · have hlink := leads_last [a] (b := b) (by simp [ha, hb]) he
    simpa [hp, Nat.add_assoc] using hlink

theorem Tiled.merge_right {r : Nat} (h : Tiled base m list (pre ++ b :: c :: post))
    (hb : b.used = false) (hc : c.used = false) (hpre : Coalesced pre) (hpost : Coalesced post)
    (hlast : ∀ x ∈ pre.getLast?, x.used = true) (hhead : ∀ x ∈ post.head?, x.used = true)
    (hfinal : LastFree (pre ++ b :: c :: post)) (hl : ¬(r ≠ 0 ∧ behind m r = base + total pre))
    (hj : next m (base + total pre) ≠ 0 ∧ behind m (base + total pre) = next m (base + total pre)) :
    Merged base list (pre ++ b :: c :: post) m (mergeWith m r (base + total pre)) := by
  have hrun : mergeWith m r (base + total pre) = _ := (if_neg hl).trans (if_pos hj)
  have hnext := next_of_joins h hb hc
  have hbroom := b.room_le
  have hapart : Apart 8 (base + total pre) (base + total pre + b.size) := Or.inr (Or.inl (by omega))
  have hblength := h.length_eq
  have hclength := length_second h.toSized
  rw [hrun, hnext, absorb_eq hapart]
  refine h.merged [c] (a := b) (by simp [hb, hc]) hpre hpost hlast hhead hfinal ?_
    (next_lt m _) fun e he => ?_
  · simp only [total_cons, total_nil, SIZEOF_HEADER_eq]
    omega
  · have hlink := leads_last [b] (b := c) (by simp [hb, hc]) he
    simpa [Nat.add_assoc] using hlink

end Neighbours

/-- Merging the free block at `base + total pre`, the only one that can have free neighbours. -/
theorem mergeWith_merged {r : Nat} (h : Tiled base m list (pre ++ b :: post)) (hb : b.used = false)
    (hr : Prev base pre r) (hpre : Coalesced pre) (hpost : Coalesced post)
    (hfinal : LastFree (pre ++ b :: post)) :
    Merged base list (pre ++ b :: post) m (mergeWith m r (base + total pre)) := by
  have hleft := left_joins h.toSized hr
  have hright := right_joins h hb
  by_cases hl : r ≠ 0 ∧ behind m r = base + total pre
  · obtain ⟨pre', a, rfl, ha, rfl⟩ := hleft.mp hl
    have hp : base + total (pre' ++ [a]) = base + total pre' + a.size := by simp [Nat.add_assoc]
    have hlast := hpre.last_used ha
    by_cases hj : next m (base + total (pre' ++ [a])) ≠ 0 ∧
        behind m (base + total (pre' ++ [a])) = next m (base + total (pre' ++ [a]))
    · obtain ⟨c, post', rfl, hc⟩ := hright.mp hj
      rw [List.append_assoc, List.singleton_append] at h hfinal ⊢
      exact h.merge_both ha hb hc hpre.left hpost.tail hlast (hpost.head_used hc) hfinal hp hl hj
    · have hhead := head_of_not_joins (mt hright.mpr hj)
      rw [List.append_assoc, List.singleton_append] at h hfinal ⊢
      exact h.merge_left ha hb hpre.left hpost hlast hhead hfinal hp hl hj
  · have hlast := last_of_not_joins hr (mt hleft.mpr hl)
    by_cases hj : next m (base + total pre) ≠ 0 ∧ behind m (base + total pre) = next m (base + total pre)
    · obtain ⟨c, post', rfl, hc⟩ := hright.mp hj
      exact h.merge_right hb hc hpre hpost.tail hlast (hpost.head_used hc) hfinal hl hj
    · have hrun : mergeWith m r (base + total pre) = m := (if_neg hl).trans (if_neg hj)
      rw [hrun]
      exact ⟨_, h, hpre.insert_free hpost hlast (head_of_not_joins (mt hright.mpr hj)), hfinal, rfl,
        fun _ _ _ _ _ _ => rfl⟩

theorem Tiled.merge (h : Tiled base m list (pre ++ b :: post)) (hb : b.used = false)
    (hpre : Coalesced pre) (hpost : Coalesced post) (hfinal : LastFree (pre ++ b :: post)) :
    Returns (fun k => finsh_block_merge k m (list false) (base + total pre)) FINSH_HEAP_MAX
      (Merged base list (pre ++ b :: post) m) := by
  refine ((prev_returns h hb).bind fun r hr =>
    Returns.const (mergeWith_merged h hb hr hpre hpost hfinal)).congr fun k => ?_
  rw [finsh_block_merge]
  split <;> rfl

/-! ### Freeing -/

theorem blocksOf_release (hb : b.used = true) :
    blocksOf true base (pre ++ b.mark false :: post) =
      (blocksOf true base (pre ++ b :: post)).filter (·.1 ≠ base + total pre) := by
  have hcut : blocksOf true base (pre ++ b :: post) = blocksOf true base pre ++
      (base + total pre, b) :: blocksOf true (base + total pre + b.size) post := by
    rw [blocksOf_append, blocksOf_cons_self hb]
  rw [blocksOf_filter_ne (by decide) hcut, blocksOf_append, blocksOf_cons_other (by simp)]
  rfl

/-- Freeing a block takes it out of the used ones. -/
theorem Holds.free {h : Heap} (hh : Holds base h bs) (hp : (p, b) ∈ blocksOf true base bs) :
    Returns (fun k => finsh_heap_free k h (finsh_block_get_data p)) FINSH_HEAP_MAX fun h' =>
      ∃ bs', Holds base h' bs' ∧
        blocksOf true base bs' = (blocksOf true base bs).filter (·.1 ≠ p) ∧
        KeepsData base bs' h.bytes h'.bytes := by
  obtain ⟨hplaced, hb⟩ := mem_blocksOf.mp hp
  obtain ⟨pre, post, rfl, rfl⟩ := mem_placed.mp hplaced
  have hpost : LastFree post := by
    have hlast := hh.last_free
    rw [LastFree.append_cons] at hlast
    cases post with
    | nil => simp [LastFree.singleton, hb] at hlast
    | cons c post => exact LastFree.cons_cons.mp hlast
  have hremove := hh.toTiled.remove
  rw [hb] at hremove
  have hbytes (k : Nat) : finsh_heap_free k h (finsh_block_get_data (base + total pre)) =
      (finsh_block_remove k h.bytes h.allocate_list (base + total pre)).bind fun r =>
        (finsh_block_insert k r.1 h.free_list (base + total pre)).bind fun s =>
          (finsh_block_merge k s.1 s.2 (base + total pre)).bind fun m =>
            some { bytes := m, free_list := s.2, allocate_list := r.2 } := rfl
  refine Returns.congr (hremove.bind fun r hr => ?_) hbytes
  obtain ⟨htaken, hlinks1⟩ := hr
  have hinsert := htaken.insert false fun hnil => absurd hnil hpost.marked_ne_nil
  rw [Function.update_of_ne (by decide)] at hinsert
  refine hinsert.bind fun s hs => ?_
  obtain ⟨htiled, hlinks2⟩ := hs
  have hfinal : LastFree (pre ++ b.mark false :: post) := by
    rw [LastFree.append_cons]
    cases post with
    | nil => exact LastFree.singleton.mpr rfl
    | cons c post => exact LastFree.cons_cons.mpr hpost
  have hmerge := htiled.merge (b.mark_used false) hh.coalesced.left hh.coalesced.right.tail hfinal
  rw [Function.update_self] at hmerge
  refine hmerge.bind fun m hm => Returns.const ?_
  obtain ⟨bs', htiled', hcoalesced, hlast, hblocks, hkeeps⟩ := hm
  have hlists : Function.update (Function.update (lists h.free_list h.allocate_list) true r.2) false
      s.2 = lists s.2 r.2 := by
    funext u
    cases u <;> rfl
  rw [hlists] at htiled'
  have hused : blocksOf true base (pre ++ b.mark false :: post) = _ := blocksOf_release hb
  refine ⟨bs', ⟨htiled', hcoalesced, hlast⟩, hblocks.trans hused, ?_⟩
  have hsub : ∀ x ∈ blocksOf true base bs', x ∈ blocksOf true base (pre ++ b :: post) := by
    rw [hblocks, hused]
    exact fun x hx => (List.mem_filter.mp hx).1
  have hkeeps1 : KeepsData base (pre ++ b :: post) h.bytes r.1 :=
    hlinks1.keepsData fun _ => header_mem
  have hkeeps2 : KeepsData base (pre ++ b :: post) r.1 s.1 := hlinks2.keepsData fun _ => header_mem
  exact ((hkeeps1.trans hkeeps2).mono hsub).trans (hkeeps.mono fun x hx => hblocks ▸ hx)

end

end Ab32Vg1.Finsh.Heap
