import Ab32Vg1.Drivers.RingBlock
import Mathlib.Data.List.Range

/-! Runs of the ring block buffer: while allocations stay clear of the blocks that queues hold, the
listed blocks go round the buffer in order, and no two blocks overlap. -/

namespace Ab32Vg1.Drivers

open ProofKit Kernel RbbStatus

namespace RbbSystem

/-- The invariant of the buffer and its users. -/
structure RbbInv (c : RbbSystem) : Prop where
  fits : c.rbb.buf + c.rbb.buf_size ≤ 2 ^ 32
  nodup : c.rbb.blk_list.Nodup
  live_iff : ∀ i, c.live i = true ↔
    i < c.rbb.blk_max_num ∧ (c.rbb.blk_set i).status ≠ RT_RBB_BLK_UNUSED
  listed : ∀ i ∈ c.rbb.blk_list, c.live i = true
  held : ∀ i, c.live i = true → i ∉ c.rbb.blk_list → (c.rbb.blk_set i).status = RT_RBB_BLK_GET
  circular : Span.Circular (c.rbb.blk_list.map c.span)
  inside : ∀ i, c.live i = true → c.rbb.buf ≤ (c.span i).start ∧
    (c.span i).stop ≤ c.rbb.buf + c.rbb.buf_size
  pos : ∀ i, c.live i = true → 0 < (c.span i).size
  disjoint : ∀ i j, c.live i = true → c.live j = true → i ≠ j → (c.span i).Disjoint (c.span j)
  members : ∀ q ∈ c.queues, q.members = List.range' q.queue.blocks q.queue.blk_num ∧
    ∀ m ∈ q.members, c.live m = true ∧ m ∉ c.rbb.blk_list
  apart : c.queues.Pairwise fun q q' => ∀ m ∈ q.members, m ∉ q'.members

variable {c c' : RbbSystem} {rbb : Rbb} {i : Nat}

theorem setStatus_span (rbb : Rbb) (b : Nat) (st : RbbStatus) (i : Nat) :
    ((rbb.setStatus b st).blk_set i).span = (rbb.blk_set i).span := by
  by_cases hi : i = b
  · subst hi
    simp [Rbb.setStatus, RbbBlk.span]
  · simp [Rbb.setStatus, hi]

theorem setStatus_status (rbb : Rbb) (b : Nat) (st : RbbStatus) (i : Nat) :
    ((rbb.setStatus b st).blk_set i).status = if i = b then st else (rbb.blk_set i).status := by
  by_cases hi : i = b
  · subst hi
    simp [Rbb.setStatus]
  · simp [Rbb.setStatus, hi]

theorem Fresh.rbbInv (h : Fresh c) : RbbInv c := by
  obtain ⟨buf, buf_size, block_set, blk_max_num, hfits, hrbb⟩ := h.init
  have hlive : ∀ i, c.live i ≠ true := fun i => by simp [h.live i]
  have hlist : c.rbb.blk_list = [] := by rw [hrbb]; rfl
  refine ⟨by rw [hrbb]; exact hfits, by rw [hlist]; exact List.nodup_nil, fun i => ?_,
    fun i hi => ?_, fun i hi => absurd hi (hlive i), ?_, fun i hi => absurd hi (hlive i),
    fun i hi => absurd hi (hlive i), fun i j hi => absurd hi (hlive i), ?_, ?_⟩
  · refine ⟨fun hi => absurd hi (hlive i), fun ⟨hi, hst⟩ => absurd ?_ hst⟩
    rw [hrbb] at hi ⊢
    show (if i < blk_max_num then { block_set i with status := RT_RBB_BLK_UNUSED }
      else block_set i).status = _
    rw [if_pos (show i < blk_max_num from hi)]
  · rw [hlist] at hi
    cases hi
  · rw [hlist]
    exact Span.Circular.nil
  · simp [h.queues]
  · simp [h.queues]

/-- Some queues are forgotten. -/
theorem RbbInv.sublist (h : RbbInv c) (queues : List HeldQueue) (hs : queues.Sublist c.queues) :
    RbbInv { c with queues := queues } := by
  obtain ⟨h1, h2, h3, h4, h5, h6, h7, h8, h9, h10, h11⟩ := h
  exact ⟨h1, h2, h3, h4, h5, h6, h7, h8, h9, fun q hq => h10 q (hs.subset hq), h11.sublist hs⟩

/-- A block of a user changes its status, and may leave the list. -/
theorem RbbInv.restatus {b : Nat} {st : RbbStatus} (h : RbbInv c) (list : List Nat)
    (hb : c.live b = true) (hst : st ≠ RT_RBB_BLK_UNUSED) (hlist : list.Sublist c.rbb.blk_list)
    (hkept : ∀ i ∈ c.rbb.blk_list, i ∉ list → i = b) (hget : b ∉ list → st = RT_RBB_BLK_GET) :
    RbbInv { c with rbb := { c.rbb with blk_list := list }.setStatus b st } := by
  have hspan : ∀ i, span { c with rbb := { c.rbb with blk_list := list }.setStatus b st } i =
      c.span i := setStatus_span _ b st
  have hstatus : ∀ i, (({ c.rbb with blk_list := list }.setStatus b st).blk_set i).status =
      if i = b then st else (c.rbb.blk_set i).status := setStatus_status _ b st
  refine ⟨h.fits, h.nodup.sublist hlist, fun i => ?_, fun i hi => h.listed i (hlist.subset hi),
    fun i hi hnot => ?_, ?_, fun i hi => ?_, fun i hi => ?_, fun i j hi hj hne => ?_,
    fun q hq => ?_, h.apart⟩
  · rw [hstatus]
    by_cases hib : i = b
    · subst hib
      rw [if_pos rfl]
      exact ⟨fun hi => ⟨((h.live_iff i).mp hi).1, hst⟩, fun _ => hb⟩
    · rw [if_neg hib]
      exact h.live_iff i
  · rw [hstatus]
    by_cases hib : i = b
    · rw [if_pos hib]
      exact hget (hib ▸ hnot)
    · rw [if_neg hib]
      exact h.held i hi fun hmem => hib (hkept i hmem hnot)
  · show Span.Circular (list.map _)
    rw [List.map_congr_left fun i _ => hspan i]
    exact h.circular.sublist (hlist.map _)
  · rw [hspan]
    exact h.inside i hi
  · rw [hspan]
    exact h.pos i hi
  · rw [hspan, hspan]
    exact h.disjoint i j hi hj hne
  · obtain ⟨h1, h2⟩ := h.members q hq
    exact ⟨h1, fun m hm => ⟨(h2 m hm).1, fun hin => (h2 m hm).2 (hlist.subset hin)⟩⟩

theorem RbbInv.put {b : Nat} (h : RbbInv c) (hs : c.step (.put b) = some c') : RbbInv c' := by
  simp only [step] at hs
  split at hs
  · next hb =>
    obtain ⟨rbb, hput, rfl⟩ := Option.map_eq_some_iff.mp hs
    obtain ⟨hinit, hput⟩ := RT_ASSERT_bind_eq_some.mp hput
    obtain rfl := Option.some.inj hput
    refine h.restatus c.rbb.blk_list hb (by decide) (List.Sublist.refl _)
      (fun i hi hn => absurd hi hn) fun hnot => ?_
    rw [h.held b hb hnot] at hinit
    cases hinit
  · cases hs

theorem RbbInv.get (h : RbbInv c) : RbbInv { c with rbb := c.rbb.rt_rbb_blk_get.1 } := by
  rw [Rbb.rt_rbb_blk_get]
  cases hfind : c.rbb.blk_list.find? fun i => (c.rbb.blk_set i).status = RT_RBB_BLK_PUT with
  | none => exact h
  | some b =>
    have hmem := List.mem_of_find?_eq_some hfind
    exact h.restatus c.rbb.blk_list (h.listed b hmem) (by decide) (List.Sublist.refl _)
      (fun i hi hn => absurd hi hn) fun hnot => absurd hmem hnot

/-- A block leaves the list for a queue. -/
theorem RbbInv.take {b : Nat} (h : RbbInv c) (hb : b ∈ c.rbb.blk_list) :
    RbbInv { c with rbb := c.rbb.take b } := by
  refine h.restatus _ (h.listed b hb) (by decide) List.erase_sublist (fun i hi hn => ?_) fun _ => rfl
  by_contra hne
  exact hn ((List.mem_erase_of_ne hne).mpr hi)

/-- A block is freed that no queue holds. -/
theorem RbbInv.release {b : Nat} (h : RbbInv c) (hq : ∀ q ∈ c.queues, b ∉ q.members) :
    RbbInv { c with
      rbb := { c.rbb with blk_list := c.rbb.blk_list.erase b }.setStatus b RT_RBB_BLK_UNUSED
      live := Function.update c.live b false } := by
  have hspan : ∀ i, span { c with
      rbb := { c.rbb with blk_list := c.rbb.blk_list.erase b }.setStatus b RT_RBB_BLK_UNUSED
      live := Function.update c.live b false } i = c.span i := setStatus_span _ b _
  have hstatus : ∀ i, (({ c.rbb with blk_list := c.rbb.blk_list.erase b }.setStatus b
      RT_RBB_BLK_UNUSED).blk_set i).status =
        if i = b then RT_RBB_BLK_UNUSED else (c.rbb.blk_set i).status := setStatus_status _ b _
  have hlive : ∀ i, Function.update c.live b false i = true ↔ i ≠ b ∧ c.live i = true := by
    intro i
    by_cases hib : i = b
    · subst hib
      simp
    · simp [hib]
  have hsub : (c.rbb.blk_list.erase b).Sublist c.rbb.blk_list := List.erase_sublist
  refine ⟨h.fits, h.nodup.sublist hsub, fun i => ?_, fun i hi => ?_, fun i hi hnot => ?_, ?_,
    fun i hi => ?_, fun i hi => ?_, fun i j hi hj hne => ?_, fun q hmem => ?_, h.apart⟩
  · rw [hlive, hstatus]
    by_cases hib : i = b
    · simp [hib]
    · rw [if_neg hib, h.live_iff]
      exact ⟨fun h => h.2, fun h => ⟨hib, h⟩⟩
  · obtain ⟨hne, hi⟩ := (h.nodup.mem_erase_iff).mp hi
    exact (hlive i).mpr ⟨hne, h.listed i hi⟩
  · obtain ⟨hne, hi⟩ := (hlive i).mp hi
    rw [hstatus, if_neg hne]
    exact h.held i hi fun hin => hnot ((List.mem_erase_of_ne hne).mpr hin)
  · show Span.Circular ((c.rbb.blk_list.erase b).map _)
    rw [List.map_congr_left fun i _ => hspan i]
    exact h.circular.sublist (hsub.map _)
  · rw [hspan]
    exact h.inside i ((hlive i).mp hi).2
  · rw [hspan]
    exact h.pos i ((hlive i).mp hi).2
  · rw [hspan, hspan]
    exact h.disjoint i j ((hlive i).mp hi).2 ((hlive j).mp hj).2 hne
  · obtain ⟨h1, h2⟩ := h.members q hmem
    refine ⟨h1, fun m hm => ⟨(hlive m).mpr ⟨?_, (h2 m hm).1⟩, fun hin => (h2 m hm).2 (hsub.subset hin)⟩⟩
    rintro rfl
    exact hq q hmem hm

theorem rt_rbb_blk_free_eq {b : Nat} {rbb' : Rbb} (hs : rbb.rt_rbb_blk_free b = some rbb') :
    (rbb.blk_set b).status ≠ RT_RBB_BLK_UNUSED ∧
      rbb' = { rbb with blk_list := rbb.blk_list.erase b }.setStatus b RT_RBB_BLK_UNUSED := by
  obtain ⟨hst, hs⟩ := RT_ASSERT_bind_eq_some.mp hs
  exact ⟨hst, (Option.some.inj hs).symm⟩

theorem RbbInv.free {b : Nat} (h : RbbInv c) (hs : c.step (.free b) = some c') : RbbInv c' := by
  simp only [step] at hs
  split at hs
  · obtain ⟨rbb, hfree, rfl⟩ := Option.map_eq_some_iff.mp hs
    obtain ⟨-, rfl⟩ := rt_rbb_blk_free_eq hfree
    have hsub := h.sublist (c.queues.filter fun q => b ∉ q.members) List.filter_sublist
    exact hsub.release fun q hq => by simpa using (List.mem_filter.mp hq).2
  · cases hs

/-- The loop of `rt_rbb_blk_queue_free` frees the blocks from `block` on. -/
theorem RbbInv.freeLoop {n block : Nat} {rbb' : Rbb} (h : RbbInv c)
    (hq : ∀ q ∈ c.queues, ∀ m ∈ q.members, ¬(block ≤ m ∧ m < block + n))
    (hs : Rbb.freeLoop n block c.rbb = some rbb') :
    RbbInv { c with
      rbb := rbb', live := fun i => c.live i && decide (i ∉ List.range' block n) } := by
  induction n generalizing c block with
  | zero =>
    obtain rfl := Option.some.inj hs
    simpa using h
  | succ n ih =>
    rw [Rbb.freeLoop] at hs
    split at hs
    · obtain ⟨rbb1, hfree, hs⟩ := Option.bind_eq_some_iff.mp hs
      obtain ⟨-, rfl⟩ := rt_rbb_blk_free_eq hfree
      have h1 := h.release fun q hmem hb => hq q hmem block hb ⟨Nat.le_refl _, by omega⟩
      have h2 := ih h1 (fun q hmem m hm hr => hq q hmem m hm ⟨by omega, by omega⟩) hs
      refine cast (congrArg RbbInv ?_) h2
      refine congrArg (fun live => ({ c with rbb := rbb', live := live } : RbbSystem)) ?_
      funext i
      by_cases hib : i = block
      · subst hib
        simp
      · simp [hib, List.range'_succ]
    · cases hs

theorem RbbInv.queueFree {k : Nat} (h : RbbInv c) (hs : c.step (.queueFree k) = some c') :
    RbbInv c' := by
  obtain ⟨held, hheld, hs⟩ := Option.bind_eq_some_iff.mp hs
  obtain ⟨rbb', hfree, hs⟩ := Option.bind_eq_some_iff.mp hs
  obtain rfl := Option.some.inj hs
  obtain ⟨hk, hget⟩ := List.getElem?_eq_some_iff.mp hheld
  have hmem : held ∈ c.queues := hget ▸ List.getElem_mem hk
  obtain ⟨hmembers, -⟩ := h.members held hmem
  have hrest := h.sublist _ (List.eraseIdx_sublist c.queues k)
  rw [hmembers]
  refine hrest.freeLoop (fun q hq m hm hr => ?_) hfree
  have hin : m ∈ held.members := by
    rw [hmembers]
    exact List.mem_range'_1.mpr hr
  -- the queue that is freed and the others have no block in common
  obtain ⟨i, hi, hne, rfl⟩ : ∃ i, ∃ hi : i < c.queues.length, i ≠ k ∧ c.queues[i] = q := by
    obtain ⟨i, hne, hi⟩ := List.mem_eraseIdx_iff_getElem?.mp hq
    obtain ⟨hlt, rfl⟩ := List.getElem?_eq_some_iff.mp hi
    exact ⟨i, hlt, hne, rfl⟩
  subst hget
  rcases Nat.lt_or_gt_of_ne hne with hlt | hlt
  · exact List.pairwise_iff_getElem.mp h.apart i k hi hk hlt m hm hin
  · exact List.pairwise_iff_getElem.mp h.apart k i hk hi hlt m hin hm

/-! ### Taking a queue -/

/-- Neighbours of the list that are both to be got have neighbouring descriptors. -/
def Next (status : Nat → RbbStatus) (a b : Nat) : Prop :=
  status a = RT_RBB_BLK_PUT → status b = RT_RBB_BLK_PUT → b = a + 1

theorem take_status {node i : Nat} (hi : i ≠ node) :
    ((rbb.take node).blk_set i).status = (rbb.blk_set i).status := by
  rw [Rbb.take, setStatus_status, if_neg hi]

/-- The blocks taken have consecutive descriptors. -/
theorem queueLoop_consecutive (status : Nat → RbbStatus) (len total : Nat) (rbb : Rbb)
    (taken : List Nat) {nodes : List Nat} (hnd : nodes.Nodup) (hstatus : ∀ i ∈ nodes, (rbb.blk_set i).status = status i)
    (hchain : nodes.IsChain (Next status))
    (hlast : ∀ last, taken.getLast? = some last → ∀ i ∈ nodes.head?,
      status i = RT_RBB_BLK_PUT → i = last + 1)
    (htaken : ∃ first, taken = List.range' first taken.length) :
    ∃ first, (Rbb.queueLoop len nodes rbb taken total).2.1 =
      List.range' first (Rbb.queueLoop len nodes rbb taken total).2.1.length := by
  induction nodes generalizing rbb taken total with
  | nil => exact htaken
  | cons node nodes ih =>
    obtain ⟨hnot, hnd'⟩ := List.nodup_cons.mp hnd
    have hnode := hstatus node List.mem_cons_self
    have hrest : ∀ i ∈ nodes, ((rbb.take node).blk_set i).status = status i := by
      intro i hi
      have hne : i ≠ node := fun heq => hnot (heq ▸ hi)
      rw [take_status hne, hstatus i (List.mem_cons_of_mem _ hi)]
    have hlink : ∀ i ∈ nodes.head?, Next status node i := (List.isChain_cons.mp hchain).1
    have htail : nodes.IsChain (Next status) := (List.isChain_cons.mp hchain).2
    simp only [Rbb.queueLoop]
    cases hl : taken.getLast? with
    | none =>
      obtain rfl := List.getLast?_eq_none_iff.mp hl
      dsimp only
      split
      · next hput =>
        rw [hnode] at hput
        refine ih _ _ _ hnd' hrest htail (fun last hlast' i hi hst => ?_) ⟨node, rfl⟩
        obtain rfl : node = last := by simpa using hlast'
        exact hlink i hi hput hst
      · refine ih _ _ _ hnd' (fun i hi => hstatus i (List.mem_cons_of_mem _ hi)) htail (fun last h => ?_)
          ⟨0, rfl⟩
        cases h
    | some last =>
      dsimp only
      split
      · exact htaken
      · next hgo =>
        have hput : status node = RT_RBB_BLK_PUT := by
          rw [← hnode]
          by_contra hne
          exact hgo (Or.inl hne)
        obtain rfl := hlast last hl node rfl hput
        refine ih _ _ _ hnd' hrest htail (fun last' hlast' i hi hst => ?_) ?_
        · obtain rfl : last + 1 = last' := by simpa using hlast'
          exact hlink i hi hput hst
        · obtain ⟨first, hfirst⟩ := htaken
          refine ⟨first, ?_⟩
          have hlen : taken.length ≠ 0 := fun h0 => by
            rw [List.length_eq_zero_iff.mp h0] at hl
            cases hl
          have hlasteq : last = first + taken.length - 1 := by
            rw [hfirst, List.getLast?_range', if_neg hlen] at hl
            simpa using hl.symm
          rw [List.length_append, List.length_singleton, List.range'_concat, ← hfirst, Nat.one_mul,
            hlasteq]
          congr 2
          omega

/-- The blocks taken leave the list and stay with the user. -/
theorem RbbInv.queueLoop {nodes : List Nat} (h : RbbInv { c with rbb := rbb })
    (len total : Nat) (taken : List Nat) (hnd : nodes.Nodup) (hnodes : ∀ i ∈ nodes, i ∈ rbb.blk_list)
    (htaken : ∀ i ∈ taken, c.live i = true ∧ i ∉ rbb.blk_list)
    (hold : ∀ i ∈ taken, i ∈ c.rbb.blk_list) (hsub : rbb.blk_list.Sublist c.rbb.blk_list) :
    let r := Rbb.queueLoop len nodes rbb taken total
    RbbInv { c with rbb := r.1 } ∧ (∀ i ∈ r.2.1, c.live i = true ∧ i ∉ r.1.blk_list) ∧
      ∀ i ∈ r.2.1, i ∈ c.rbb.blk_list := by
  induction nodes generalizing rbb taken total with
  | nil => exact ⟨h, htaken, hold⟩
  | cons node nodes ih =>
    obtain ⟨hnot, hnd'⟩ := List.nodup_cons.mp hnd
    have hnode := hnodes node List.mem_cons_self
    have hrest : ∀ i ∈ nodes, i ∈ (rbb.take node).blk_list := by
      intro i hi
      have hne : i ≠ node := fun heq => hnot (heq ▸ hi)
      exact (List.mem_erase_of_ne hne).mpr (hnodes i (List.mem_cons_of_mem _ hi))
    have hgone : node ∉ (rbb.take node).blk_list := fun hin =>
      ((h.nodup.mem_erase_iff).mp hin).1 rfl
    have hless : ((rbb.take node).blk_list).Sublist rbb.blk_list := List.erase_sublist
    have hmore : ∀ i ∈ taken ++ [node], c.live i = true ∧ i ∉ (rbb.take node).blk_list := by
      intro i hi
      rcases List.mem_append.mp hi with hi | hi
      · exact ⟨(htaken i hi).1, fun hin => (htaken i hi).2 (hless.subset hin)⟩
      · obtain rfl := List.mem_singleton.mp hi
        exact ⟨h.listed i hnode, hgone⟩
    have holds : ∀ i ∈ taken ++ [node], i ∈ c.rbb.blk_list := by
      intro i hi
      rcases List.mem_append.mp hi with hi | hi
      · exact hold i hi
      · obtain rfl := List.mem_singleton.mp hi
        exact hsub.subset hnode
    simp only [Rbb.queueLoop]
    cases hl : taken.getLast? with
    | none =>
      obtain rfl := List.getLast?_eq_none_iff.mp hl
      dsimp only
      split
      · exact ih (h.take hnode) _ _ hnd' hrest hmore holds (hless.trans hsub)
      · exact ih h _ _ hnd' (fun i hi => hnodes i (List.mem_cons_of_mem _ hi)) htaken hold hsub
    | some last =>
      dsimp only
      split
      · exact ⟨h, htaken, hold⟩
      · exact ih (h.take hnode) _ _ hnd' hrest hmore holds (hless.trans hsub)

theorem RbbInv.queueGet {len : Nat} (h : RbbInv c) (hl : c.Sound (.queueGet len))
    (hs : c.step (.queueGet len) = some c') : RbbInv c' := by
  obtain ⟨hinv, htaken, hold⟩ := h.queueLoop len 0 [] h.nodup (fun i hi => hi)
    (fun i hi => by cases hi) (fun i hi => by cases hi) (List.Sublist.refl _)
  have hcons := queueLoop_consecutive (fun i => (c.rbb.blk_set i).status) len 0 c.rbb []
    h.nodup (fun i _ => rfl) hl (fun last h => by cases h) ⟨0, rfl⟩
  simp only [step, Rbb.rt_rbb_blk_queue_get] at hs
  generalize Rbb.queueLoop len c.rbb.blk_list c.rbb [] 0 = r at hs hinv htaken hold hcons
  obtain ⟨rbb', taken, total⟩ := r
  simp only at hs hinv htaken hold hcons
  cases taken with
  | nil =>
    obtain rfl := Option.some.inj hs
    exact hinv
  | cons first rest =>
    obtain rfl := Option.some.inj hs
    obtain ⟨first', hfirst⟩ := hcons
    have heq : first :: rest = List.range' first (first :: rest).length := by
      have hhead := congrArg List.head? hfirst
      rw [List.length_cons, List.range'_succ] at hhead
      obtain rfl : first = first' := by simpa using hhead
      exact hfirst
    obtain ⟨h1, h2, h3, h4, h5, h6, h7, h8, h9, h10, h11⟩ := hinv
    refine ⟨h1, h2, h3, h4, h5, h6, h7, h8, h9, fun q hq => ?_, ?_⟩
    · rcases List.mem_cons.mp hq with rfl | hq
      · exact ⟨heq, htaken⟩
      · exact h10 q hq
    · refine List.pairwise_cons.mpr ⟨fun q hq m hm hin => ?_, h11⟩
      exact ((h.members q hq).2 m hin).2 (hold m hm)

/-! ### Allocating -/

theorem link_blk {new buf size : Nat} (i : Nat) :
    (rbb.link new buf size).blk_set i =
      if i = new then ⟨RT_RBB_BLK_INITED, size % 2 ^ 24, buf⟩ else rbb.blk_set i := by
  by_cases hi : i = new
  · subst hi
    simp [Rbb.link]
  · simp [Rbb.link, hi]

/-- A new block goes behind the listed ones, clear of the blocks that queues hold. -/
theorem RbbInv.link {new buf size : Nat} (h : RbbInv c) (hnew : new < c.rbb.blk_max_num)
    (hunused : (c.rbb.blk_set new).status = RT_RBB_BLK_UNUSED) (hpos : 0 < size)
    (hsize : size < 2 ^ 24) (hlow : c.rbb.buf ≤ buf)
    (hhigh : buf + size ≤ c.rbb.buf + c.rbb.buf_size)
    (hcirc : Span.Circular (c.rbb.blk_list.map c.span ++ [⟨buf, size⟩]))
    (hheld : ∀ i, c.live i = true → i ∉ c.rbb.blk_list → (c.span i).Disjoint ⟨buf, size⟩) :
    RbbInv { c with rbb := c.rbb.link new buf size, live := Function.update c.live new true } := by
  have hdead : c.live new ≠ true := fun hlive => ((h.live_iff new).mp hlive).2 hunused
  have hlisted : new ∉ c.rbb.blk_list := fun hin => hdead (h.listed new hin)
  have hlive : ∀ i, Function.update c.live new true i = true ↔ i = new ∨ c.live i = true := by
    intro i
    by_cases hi : i = new
    · subst hi
      simp
    · simp [hi]
  have hspan : ∀ i, span { c with
      rbb := c.rbb.link new buf size, live := Function.update c.live new true } i =
        if i = new then ⟨buf, size⟩ else c.span i := by
    intro i
    rw [span, link_blk]
    split
    · rw [RbbBlk.span, Nat.mod_eq_of_lt hsize]
    · rfl
  have hstatus : ∀ i, ((c.rbb.link new buf size).blk_set i).status =
      if i = new then RT_RBB_BLK_INITED else (c.rbb.blk_set i).status := by
    intro i
    rw [link_blk]
    split <;> rfl
  have hmap : (c.rbb.blk_list ++ [new]).map (span { c with
      rbb := c.rbb.link new buf size, live := Function.update c.live new true }) =
        c.rbb.blk_list.map c.span ++ [⟨buf, size⟩] := by
    rw [List.map_append, List.map_singleton, hspan new, if_pos rfl]
    congr 1
    refine List.map_congr_left fun i hi => ?_
    have hne : i ≠ new := fun heq => hlisted (heq ▸ hi)
    rw [hspan, if_neg hne]
  -- the new block and an old one
  have hnewdis : ∀ i, c.live i = true → (c.span i).Disjoint ⟨buf, size⟩ := by
    intro i hi
    by_cases hin : i ∈ c.rbb.blk_list
    · exact (List.pairwise_append.mp hcirc.disjoint).2.2 _ (List.mem_map_of_mem hin) _ (by simp)
    · exact hheld i hi hin
  refine ⟨h.fits, ?_, fun i => ?_, fun i hi => ?_, fun i hi hnot => ?_, ?_, fun i hi => ?_,
    fun i hi => ?_, fun i j hi hj hne => ?_, fun q hq => ?_, h.apart⟩
  · exact List.nodup_append.mpr ⟨h.nodup, by simp, fun a ha b hb heq =>
      hlisted ((List.mem_singleton.mp hb) ▸ heq ▸ ha)⟩
  · rw [hlive, hstatus]
    by_cases hi : i = new
    · rw [if_pos hi]
      exact ⟨fun _ => ⟨hi ▸ hnew, by decide⟩, fun _ => Or.inl hi⟩
    · rw [if_neg hi, h.live_iff]
      exact ⟨fun hor => hor.resolve_left hi, Or.inr⟩
  · refine (hlive i).mpr ?_
    rcases List.mem_append.mp hi with hi | hi
    · exact Or.inr (h.listed i hi)
    · exact Or.inl (List.mem_singleton.mp hi)
  · have hne : i ≠ new := fun heq => hnot (List.mem_append_right _ (by simp [heq]))
    rw [hstatus, if_neg hne]
    exact h.held i (((hlive i).mp hi).resolve_left hne) fun hin =>
      hnot (List.mem_append_left _ hin)
  · show Span.Circular ((c.rbb.blk_list ++ [new]).map _)
    rw [hmap]
    exact hcirc
  · rw [hspan]
    split
    · exact ⟨hlow, hhigh⟩
    · next hne => exact h.inside i (((hlive i).mp hi).resolve_left hne)
  · rw [hspan]
    split
    · exact hpos
    · next hne => exact h.pos i (((hlive i).mp hi).resolve_left hne)
  · rw [hspan, hspan]
    by_cases hin : i = new
    · rw [if_pos hin, if_neg fun hjn => hne (hin.trans hjn.symm)]
      exact (hnewdis j (((hlive j).mp hj).resolve_left fun hjn => hne (hin.trans hjn.symm))).symm
    · rw [if_neg hin]
      by_cases hjn : j = new
      · rw [if_pos hjn]
        exact hnewdis i (((hlive i).mp hi).resolve_left hin)
      · rw [if_neg hjn]
        exact h.disjoint i j (((hlive i).mp hi).resolve_left hin)
          (((hlive j).mp hj).resolve_left hjn) hne
  · obtain ⟨h1, h2⟩ := h.members q hq
    refine ⟨h1, fun m hm => ⟨(hlive m).mpr (Or.inr (h2 m hm).1), fun hin => ?_⟩⟩
    rcases List.mem_append.mp hin with hin | hin
    · exact (h2 m hm).2 hin
    · exact hdead (List.mem_singleton.mp hin ▸ (h2 m hm).1)

/-- The free space between two addresses, on 32-bit words. -/
theorem sub32_eq {a b : Nat} (h : b ≤ a) (hb : 0 < b) (ha : a ≤ 2 ^ 32) :
    sub32 (a % 2 ^ 32) (b % 2 ^ 32) = a - b := by
  rw [sub32]
  omega

theorem sub32_of_lt {a b : Nat} (h : b ≤ a) (ha : a < 2 ^ 32) : sub32 a b = a - b := by
  rw [sub32]
  omega

/-- Where the first and the last listed block and the blocks that queues hold are. -/
theorem RbbInv.spared (h : RbbInv c) {blk_size : Nat} (hl : c.Sound (.alloc blk_size)) (i : Nat)
    (hi : c.live i = true) (hnot : i ∉ c.rbb.blk_list) : RbbSystem.spared c.rbb (c.span i) = true :=
  hl.2 i ((h.live_iff i).mp hi).1 (h.held i hi hnot) hnot

/-- The list is empty, and so are the queues: the block goes to the start of the buffer. -/
theorem RbbInv.allocFirst {new blk_size : Nat} (h : RbbInv c) (hl : c.Sound (.alloc blk_size))
    (hnew : new < c.rbb.blk_max_num) (hunused : (c.rbb.blk_set new).status = RT_RBB_BLK_UNUSED)
    (hpos : 0 < blk_size) (hsize : blk_size < 2 ^ 24) (hempty : c.rbb.blk_list = []) :
    RbbInv { c with
      rbb := c.rbb.link new c.rbb.buf blk_size, live := Function.update c.live new true } := by
  have hfit := hl.1 hempty
  refine h.link hnew hunused hpos hsize (Nat.le_refl _) (by omega) ?_ fun i hi hnot => ?_
  · rw [hempty]
    exact Span.Circular.singleton _
  · have hspared := h.spared hl i hi hnot
    simp [RbbSystem.spared, hempty] at hspared

/-- The list has a first and a last block. -/
theorem RbbInv.allocNext {new blk_size first last : Nat} {r : Rbb × Option Nat} (h : RbbInv c)
    (hl : c.Sound (.alloc blk_size)) (hnew : new < c.rbb.blk_max_num)
    (hunused : (c.rbb.blk_set new).status = RT_RBB_BLK_UNUSED) (hpos : 0 < blk_size)
    (hsize : blk_size < 2 ^ 24) (hfirst : c.rbb.blk_list.head? = some first)
    (hlast : c.rbb.blk_list.getLast? = some last) (hr : c.rbb.allocIn new blk_size = r) :
    r = (c.rbb, none) ∨ ∃ buf, r = (c.rbb.link new buf blk_size, some new) ∧
      RbbInv { c with
        rbb := c.rbb.link new buf blk_size, live := Function.update c.live new true } := by
  have hfits := h.fits
  have hfirst' : c.live first = true := h.listed first (List.mem_of_head? hfirst)
  have hlast' : c.live last = true := h.listed last (List.mem_of_getLast? hlast)
  obtain ⟨hflow, hfhigh⟩ := h.inside first hfirst'
  obtain ⟨hllow, hlhigh⟩ := h.inside last hlast'
  have hfpos := h.pos first hfirst'
  have hlpos := h.pos last hlast'
  have hhead : (c.rbb.blk_list.map c.span).head? = some (c.span first) := by
    rw [List.head?_map, hfirst]
    rfl
  have htail : (c.rbb.blk_list.map c.span).getLast? = some (c.span last) := by
    rw [List.getLast?_map, hlast]
    rfl
  have hspared : ∀ i, c.live i = true → i ∉ c.rbb.blk_list →
      if (c.span first).start ≤ (c.span last).start then
        (c.span first).start ≤ (c.span i).start ∧ (c.span i).stop ≤ (c.span last).stop
      else (c.span i).stop ≤ (c.span last).stop ∨ (c.span first).start ≤ (c.span i).start := by
    intro i hi hnot
    have hsp := h.spared hl i hi hnot
    simp only [RbbSystem.spared, hfirst, hlast] at hsp
    split at hsp
    · next hle =>
      rw [if_pos (show (c.span first).start ≤ (c.span last).start from hle)]
      exact of_decide_eq_true hsp
    · next hlt =>
      rw [if_neg (show ¬(c.span first).start ≤ (c.span last).start from hlt)]
      exact of_decide_eq_true hsp
  have hfstop : (c.span first).stop = (c.span first).start + (c.span first).size := rfl
  have hlstop : (c.span last).stop = (c.span last).start + (c.span last).size := rfl
  rw [Rbb.allocIn, hfirst, hlast] at hr
  change (if (c.span first).start ≤ (c.span last).start then
      if sub32 ((c.rbb.buf + c.rbb.buf_size) % 2 ^ 32) ((c.span last).stop % 2 ^ 32) ≥ blk_size then
        (c.rbb.link new ((c.span last).stop % 2 ^ 32) blk_size, some new)
      else if sub32 (c.span first).start c.rbb.buf ≥ blk_size then
        (c.rbb.link new c.rbb.buf blk_size, some new)
      else (c.rbb, none)
    else
      if sub32 (c.span first).start ((c.span last).stop % 2 ^ 32) ≥ blk_size then
        (c.rbb.link new ((c.span last).stop % 2 ^ 32) blk_size, some new)
      else (c.rbb, none)) = r at hr
  by_cases hle : (c.span first).start ≤ (c.span last).start
  · have hasc := h.circular.ascending hhead htail hlpos hle
    simp only [hle, if_true] at hspared
    rw [if_pos hle, sub32_eq hlhigh (by omega) hfits, sub32_of_lt hflow (by omega)] at hr
    split at hr
    · -- behind the last block
      next hroom =>
      rw [Nat.mod_eq_of_lt (by omega)] at hr
      refine Or.inr ⟨_, hr.symm, h.link hnew hunused hpos hsize (by omega) (by omega)
        (hasc.after htail (Nat.le_refl _)) fun i hi hnot => Or.inl (hspared i hi hnot).2⟩
    · split at hr
      · -- at the start of the buffer, below the first block
        next hroom =>
        have hbelow : c.rbb.buf + blk_size ≤ (c.span first).start := by omega
        exact Or.inr ⟨_, hr.symm, h.link hnew hunused hpos hsize (Nat.le_refl _) (by omega)
          (hasc.below hhead hbelow) fun i hi hnot => Or.inr (hbelow.trans (hspared i hi hnot).1)⟩
      · exact Or.inl hr.symm
  · obtain ⟨high, low, hlist, hrot, hhigh, hlow⟩ :=
      h.circular.wrapped hhead htail (by omega)
    have hgap : (c.span last).stop ≤ (c.span first).start :=
      (List.pairwise_append.mp hrot).2.2 _ (List.mem_of_getLast? hlow) _ (List.mem_of_head? hhigh)
    simp only [hle, if_false] at hspared
    rw [if_neg hle, Nat.mod_eq_of_lt (by omega), sub32_of_lt hgap (by omega)] at hr
    split at hr
    · -- between the last block and the first one
      next hroom =>
      have hbelow : (c.span last).stop + blk_size ≤ (c.span first).start := by omega
      refine Or.inr ⟨_, hr.symm, h.link hnew hunused hpos hsize (by omega) (by omega)
        (h.circular.between hhead htail (by omega) (Nat.le_refl _) hbelow) fun i hi hnot => ?_⟩
      exact (hspared i hi hnot).imp id fun hge => hbelow.trans hge
    · exact Or.inl hr.symm

theorem RbbInv.alloc {blk_size : Nat} (h : RbbInv c) (hl : c.Sound (.alloc blk_size))
    (hs : c.step (.alloc blk_size) = some c') : RbbInv c' := by
  simp only [step] at hs
  split at hs
  · next hpos =>
    obtain ⟨⟨rbb', new_rbb⟩, halloc, rfl⟩ := Option.map_eq_some_iff.mp hs
    obtain ⟨hsize, halloc⟩ := RT_ASSERT_bind_eq_some.mp halloc
    cases hfind : c.rbb.find_empty_blk_in_set with
    | none =>
      rw [hfind] at halloc
      cases halloc
      exact h
    | some new =>
      have hnew : new < c.rbb.blk_max_num := List.mem_range.mp (List.mem_of_find?_eq_some hfind)
      have hunused : (c.rbb.blk_set new).status = RT_RBB_BLK_UNUSED := by
        simpa using List.find?_some hfind
      rw [hfind] at halloc
      dsimp only at halloc
      split at halloc
      · have hr := Option.some.inj halloc
        cases hfirst : c.rbb.blk_list.head? with
        | none =>
          have hempty := List.head?_eq_none_iff.mp hfirst
          rw [Rbb.allocIn, hfirst] at hr
          cases hr
          exact h.allocFirst hl hnew hunused hpos hsize hempty
        | some first =>
          have hne : c.rbb.blk_list ≠ [] := fun hnil => by simp [hnil] at hfirst
          obtain ⟨last, hlast⟩ := Option.ne_none_iff_exists'.mp
            (fun hnone => hne (List.getLast?_eq_none_iff.mp hnone))
          rcases h.allocNext hl hnew hunused hpos hsize hfirst hlast hr with heq | ⟨buf, heq, hinv⟩
          · cases heq
            exact h
          · cases heq
            exact hinv
      · cases halloc
        exact h
  · cases hs

theorem RbbInv.step {l : RbbStep} (h : RbbInv c) (hl : c.Sound l) (hs : c.step l = some c') :
    RbbInv c' := by
  cases l with
  | alloc blk_size => exact h.alloc hl hs
  | put block => exact h.put hs
  | get =>
    obtain rfl := Option.some.inj hs
    exact h.get
  | free block => exact h.free hs
  | queueGet len => exact h.queueGet hl hs
  | queueFree k => exact h.queueFree hs

theorem reachable_rbbInv (hr : (rbbMachine.restrict Sound).Reachable c) : RbbInv c := by
  apply hr.invariant
  · exact fun c h => Fresh.rbbInv h
  · rintro c l c' - h ⟨hl, hs⟩
    exact h.step hl hs

end RbbSystem

theorem ringBlock_disjoint {c : RbbSystem}
    (hr : (rbbMachine.restrict RbbSystem.Sound).Reachable c) : RbbContract c :=
  ⟨(RbbSystem.reachable_rbbInv hr).inside, (RbbSystem.reachable_rbbInv hr).disjoint⟩

/-! ### Runs -/

/-- A buffer at address 4096 that nobody uses. -/
def emptyRbb (buf_size blk_max_num : Nat) : RbbSystem where
  rbb := Rbb.rt_rbb_init 4096 buf_size (fun _ => ⟨RT_RBB_BLK_UNUSED, 0, 0⟩) blk_max_num
  live _ := false
  queues := []

theorem emptyRbb_fresh {buf_size blk_max_num : Nat} (h : 4096 + buf_size ≤ 2 ^ 32) :
    (emptyRbb buf_size blk_max_num).Fresh :=
  ⟨⟨4096, buf_size, _, blk_max_num, h, rfl⟩, fun _ => rfl, rfl⟩

/-- The steps after which the blocks stay apart. -/
def rbbStepSound (c : RbbSystem) (l : RbbStep) : Option RbbSystem :=
  if c.Sound l then c.step l else none

theorem rbbStepSound_step {c c' : RbbSystem} {l : RbbStep} (h : rbbStepSound c l = some c') :
    (rbbMachine.restrict RbbSystem.Sound).step c l c' := by
  rw [rbbStepSound] at h
  split at h
  · next hl => exact ⟨hl, h⟩
  · cases h

/-- Blocks go round the buffer, and a queue of two is taken and freed. -/
def roundTheBuffer : List RbbStep :=
  [.alloc 4, .alloc 4, .put 0, .put 1, .queueGet 8, .queueFree 0, .alloc 4, .alloc 4, .free 0,
    .alloc 4]

theorem ringBlock_disjoint_run :
    ∃ c, Machine.runs rbbStepSound (emptyRbb 8 3) roundTheBuffer = some c ∧
      (c.live 0, c.live 1, c.live 2) = (true, true, false) ∧
      (c.span 1, c.span 0) = (⟨4100, 4⟩, ⟨4096, 4⟩) ∧ RbbContract c := by
  have hrun : ∃ c, Machine.runs rbbStepSound (emptyRbb 8 3) roundTheBuffer = some c ∧
      (c.live 0, c.live 1, c.live 2) = (true, true, false) ∧
      (c.span 1, c.span 0) = (⟨4100, 4⟩, ⟨4096, 4⟩) := by
    decide +kernel
  obtain ⟨c, hc, hlive, hspan⟩ := hrun
  have hfresh : (rbbMachine.restrict RbbSystem.Sound).start (emptyRbb 8 3) :=
    emptyRbb_fresh (by decide)
  exact ⟨c, hc, hlive, hspan,
    ringBlock_disjoint ((Machine.Reachable.start hfresh).runs (fun _ _ _ => rbbStepSound_step) hc)⟩

/-- A block is allocated over one that a queue holds, a block is larger than the buffer, and the
queue of the blocks 1 and 0 frees the blocks 1 and 2. -/
theorem ringBlock_overlaps :
    (∃ c, rbbMachine.Reachable c ∧ c.live 0 = true ∧ c.live 1 = true ∧
      ¬(c.span 0).Disjoint (c.span 1)) ∧
    (∃ c, rbbMachine.Reachable c ∧ c.live 0 = true ∧
      c.rbb.buf + c.rbb.buf_size < (c.span 0).stop) ∧
    ∃ c, rbbMachine.Reachable c ∧ c.live 2 = true ∧ c.live 1 = true ∧
      ¬(c.span 2).Disjoint (c.span 1) := by
  have hreach : ∀ {size num ls c}, 4096 + size ≤ 2 ^ 32 →
      Machine.runs RbbSystem.step (emptyRbb size num) ls = some c → rbbMachine.Reachable c := by
    intro size num ls c hfits hc
    have hfresh : rbbMachine.start (emptyRbb size num) := emptyRbb_fresh hfits
    exact (Machine.Reachable.start hfresh).runs (fun _ _ _ hs => hs) hc
  have hheld : ∃ c, Machine.runs RbbSystem.step (emptyRbb 8 3)
      [.alloc 4, .put 0, .queueGet 8, .alloc 4] = some c ∧ c.live 0 = true ∧ c.live 1 = true ∧
      ¬(c.span 0).Disjoint (c.span 1) := by
    decide +kernel
  have hlarge : ∃ c, Machine.runs RbbSystem.step (emptyRbb 8 3) [.alloc 16] = some c ∧
      c.live 0 = true ∧ c.rbb.buf + c.rbb.buf_size < (c.span 0).stop := by
    decide +kernel
  have hwrong : ∃ c, Machine.runs RbbSystem.step (emptyRbb 16 3)
      [.alloc 4, .alloc 4, .free 0, .alloc 4, .put 1, .put 0, .queueGet 8, .alloc 4, .queueFree 0,
        .alloc 4] = some c ∧ c.live 2 = true ∧ c.live 1 = true ∧
      ¬(c.span 2).Disjoint (c.span 1) := by
    decide +kernel
  obtain ⟨c1, hc1, h1⟩ := hheld
  obtain ⟨c2, hc2, h2⟩ := hlarge
  obtain ⟨c3, hc3, h3⟩ := hwrong
  exact ⟨⟨c1, hreach (by decide) hc1, h1⟩, ⟨c2, hreach (by decide) hc2, h2⟩,
    c3, hreach (by decide) hc3, h3⟩

end Ab32Vg1.Drivers
