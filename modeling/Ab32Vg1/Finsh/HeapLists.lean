import Ab32Vg1.Finsh.Heap
import Ab32Vg1.ProofKit.WordMemory

/-! What inserting and removing a block do to a list in address order, for headers that do not overlap.
-/

namespace Ab32Vg1.Finsh.Heap

open ProofKit

@[simp] theorem SIZEOF_HEADER_eq : SIZEOF_HEADER = 8 := rfl

@[simp] theorem FINSH_HEAP_MAX_eq : FINSH_HEAP_MAX = 128 := rfl

/-! ### Headers -/

section Headers

variable {m : Bytes} {x y v : Nat}

theorem next_setNext_self (hv : v < 2 ^ 32) : next (setNext m x v) x = v :=
  Bytes.load_store_of_lt hv

theorem length_setLength_self (hv : v < 2 ^ 32) : length (setLength m x v) x = v :=
  Bytes.load_store_of_lt hv

theorem length_setNext (h : Apart 8 x y) : length (setNext m x v) y = length m y := by
  unfold Apart at h
  exact Bytes.load_store_of_disjoint (by omega)

theorem next_setLength (h : Apart 8 x y) : next (setLength m x v) y = next m y := by
  unfold Apart at h
  exact Bytes.load_store_of_disjoint (by omega)

theorem next_lt (m : Bytes) (x : Nat) : next m x < 2 ^ 32 := Bytes.load_lt m (x + 4) 4

theorem length_lt (m : Bytes) (x : Nat) : length m x < 2 ^ 32 := Bytes.load_lt m x 4

end Headers

/-- The memory `m'` differs from `m` in the links of the headers `S` only. -/
def LinksOnly (S : List Nat) (m m' : Bytes) : Prop :=
  ∀ i, (∀ x ∈ S, i < x + 4 ∨ x + 8 ≤ i) → m' i = m i

namespace LinksOnly

variable {S T : List Nat} {m m1 m2 : Bytes} {x y v : Nat}

theorem refl (S : List Nat) (m : Bytes) : LinksOnly S m m := fun _ _ => rfl

theorem trans (h1 : LinksOnly S m m1) (h2 : LinksOnly S m1 m2) : LinksOnly S m m2 :=
  fun i hi => (h2 i hi).trans (h1 i hi)

theorem mono (h : LinksOnly S m m1) (hST : ∀ x ∈ S, x ∈ T) : LinksOnly T m m1 :=
  fun i hi => h i fun x hx => hi x (hST x hx)

theorem setNext (hx : x ∈ S) : LinksOnly S m (setNext m x v) := by
  intro i hi
  have := hi x hx
  exact Bytes.store_outside (by omega)

theorem next (h : LinksOnly S m m1) (hy : ∀ x ∈ S, Apart 8 x y) (hne : y ∉ S) :
    next m1 y = Heap.next m y := by
  refine Bytes.load_congr fun i h1 h2 => h i fun x hx => ?_
  have hxy : x ≠ y := fun heq => hne (heq ▸ hx)
  have := hy x hx
  unfold Apart at this
  omega

theorem length (h : LinksOnly S m m1) (hy : ∀ x ∈ S, Apart 8 x y) :
    length m1 y = Heap.length m y := by
  refine Bytes.load_congr fun i h1 h2 => h i fun x hx => ?_
  have := hy x hx
  unfold Apart at this
  omega

end LinksOnly

/-- Addresses that headers can stand at together. -/
structure Spread (S : List Nat) : Prop where
  apart : ∀ x ∈ S, ∀ y ∈ S, Apart 8 x y
  pos : ∀ x ∈ S, 0 < x
  lt : ∀ x ∈ S, x < 2 ^ 32

namespace Spread

variable {S T : List Nat} {m : Bytes} {x y v : Nat}

theorem mono (h : Spread S) (hT : ∀ x ∈ T, x ∈ S) : Spread T where
  apart x hx y hy := h.apart x (hT x hx) y (hT y hy)
  pos x hx := h.pos x (hT x hx)
  lt x hx := h.lt x (hT x hx)

theorem zero_not_mem (h : Spread S) : 0 ∉ S := fun h0 => Nat.lt_irrefl 0 (h.pos 0 h0)

/-- The link of another header after a write to a link. -/
theorem next_setNext_ne (h : Spread S) (hx : x ∈ S) (hy : y ∈ S) (hne : y ≠ x) :
    next (setNext m x v) y = next m y :=
  (LinksOnly.setNext List.mem_cons_self).next (S := [x])
    (fun _ hz => List.mem_singleton.mp hz ▸ h.apart x hx y hy)
    (fun hz => hne (List.mem_singleton.mp hz))

end Spread

section Lists

variable {m : Bytes} {list p : Nat} {xs ys : List Nat}

/-- The search for the node before a header ends at the last node before it. -/
theorem findPrev_returns {x : Nat} (h : Leads (next m) list (xs ++ x :: p :: ys) 0)
    (hspread : Spread (xs ++ x :: p :: ys)) (hnodup : (xs ++ x :: p :: ys).Nodup) :
    Returns (fun k => findPrev k m list p) xs.length (· = x) := by
  obtain ⟨hbefore, hnext, -⟩ := Leads.cut.mp h
  refine hbefore.seek (fun y hy => ?_) (Or.inr hnext)
  have hy0 : 0 < y := hspread.pos y (List.mem_append_left _ hy)
  -- the link of a node before `x` leads to a node of the list that is not `p`
  obtain ⟨as, bs, rfl⟩ := List.append_of_mem hy
  have hnext_y : next m y ∈ bs ∨ bs = [] ∧ next m y = x := hbefore.next_mem
  have hp : p ∉ as ++ y :: bs ++ [x] := by
    intro hmem
    rw [show as ++ y :: bs ++ x :: p :: ys = (as ++ y :: bs ++ [x]) ++ p :: ys by simp] at hnodup
    exact (List.nodup_append.mp hnodup).2.2 p hmem p List.mem_cons_self rfl
  rintro (rfl | heq)
  · exact absurd hy0 (Nat.lt_irrefl 0)
  · rcases hnext_y with hmem | ⟨-, hx⟩
    · exact hp (by simp [← heq, hmem])
    · exact hp (by simp [← heq, hx])

/-- A header is put behind the node `x`. At the end of the list it keeps the link it has. -/
theorem insert_behind {x : Nat} (h : Leads (next m) list (xs ++ x :: ys) 0)
    (hspread : Spread (xs ++ x :: p :: ys)) (hsorted : (xs ++ x :: p :: ys).Pairwise (· < ·))
    (hend : ys = [] → next m p = 0) :
    Returns (fun k => finsh_block_insert k m list p) xs.length fun r =>
      Leads (next r.1) r.2 (xs ++ x :: p :: ys) 0 ∧ LinksOnly [p, x] m r.1 := by
  obtain ⟨-, htail, hbefore⟩ := List.pairwise_append.mp hsorted
  obtain ⟨hx, hptail⟩ := List.pairwise_cons.mp htail
  have hp := (List.pairwise_cons.mp hptail).1
  have hxp : x < p := hx p List.mem_cons_self
  obtain ⟨hsearch, -⟩ := Leads.cut.mp h
  have hlist : list ∈ xs ++ [x] := by
    cases xs with
    | nil => exact List.mem_singleton.mpr hsearch
    | cons y xs => exact hsearch.1 ▸ List.mem_cons_self
  have hlist_lt : list < p := by
    rcases List.mem_append.mp hlist with hl | hl
    · exact hbefore list hl p (by simp)
    · exact List.mem_singleton.mp hl ▸ hxp
  have hlist_pos : 0 < list := hspread.pos list (by
    rcases List.mem_append.mp hlist with hl | hl
    · exact List.mem_append_left _ hl
    · simp [List.mem_singleton.mp hl])
  have hnext := h.next_mem
  -- the nodes before `x` have links to nodes below `p`
  have hfound : Returns (fun k => seek (next m)
      (fun node => node = 0 ∨ p < next m node ∨ next m node = 0) k list) xs.length (· = x) := by
    refine hsearch.seek (fun y hy => ?_) ?_
    · obtain ⟨as, bs, rfl⟩ := List.append_of_mem hy
      have hy0 : 0 < y := hspread.pos y (List.mem_append_left _ hy)
      have hlink : next m y < p ∧ 0 < next m y := by
        rcases hsearch.next_mem with hmem | ⟨-, hlink⟩
        · have hin : next m y ∈ as ++ y :: bs := by simp [hmem]
          exact ⟨hbefore _ hin p (by simp), hspread.pos _ (List.mem_append_left _ hin)⟩
        · exact ⟨hlink ▸ hxp, hlink ▸ hspread.pos x (by simp)⟩
      omega
    · rcases hnext with hmem | ⟨-, hlink⟩
      · exact Or.inr (Or.inl (hp _ hmem))
      · exact Or.inr (Or.inr hlink)
  let m1 := if next m x ≠ 0 then setNext m p (next m x) else m
  have hxm : x ∈ xs ++ x :: p :: ys := by simp
  have hpm : p ∈ xs ++ x :: p :: ys := by simp
  have hm1 : LinksOnly [p] m m1 := by
    unfold m1
    split
    · exact LinksOnly.setNext List.mem_cons_self
    · exact LinksOnly.refl _ _
  have hp1 : next m1 p = next m x := by
    unfold m1
    split
    · exact next_setNext_self (next_lt m x)
    · next hzero =>
      have hx0 : next m x = 0 := not_not.mp hzero
      rcases hnext with hmem | ⟨hnil, -⟩
      · exact absurd hx0 (Nat.ne_of_gt (hspread.pos _ (by simp [hmem])))
      · rw [hend hnil, hx0]
  have hkept (y : Nat) (hy : y ∈ xs ++ x :: p :: ys) (hyx : y ≠ x) (hyp : y ≠ p) :
      next (setNext m1 x p) y = next m y := by
    rw [hspread.next_setNext_ne hxm hy hyx]
    refine hm1.next (fun z hz => ?_) fun hz => hyp (List.mem_singleton.mp hz)
    exact List.mem_singleton.mp hz ▸ hspread.apart p hpm y hy
  refine (hfound.bind fun r hr => Returns.const
    (a := (setNext (if next m r ≠ 0 then setNext m p (next m r) else m) r p, list)) ?_).congr
      fun k => ?_
  · subst hr
    refine ⟨h.insert (next_setNext_self (hspread.lt p hpm)) ?_ (fun y hy => ?_) fun y hy => ?_, ?_⟩
    · rw [hspread.next_setNext_ne hxm hpm (Nat.ne_of_gt hxp)]
      exact hp1
    · exact hkept y (by simp [hy]) (Nat.ne_of_lt (hbefore y hy r (by simp)))
        (Nat.ne_of_lt (hbefore y hy p (by simp)))
    · exact hkept y (by simp [hy]) (Nat.ne_of_gt (hx y (by simp [hy]))) (Nat.ne_of_gt (hp y hy))
    · exact (hm1.mono (by simp)).trans (LinksOnly.setNext (by simp))
  · rw [finsh_block_insert, if_neg (by omega), if_neg (by omega)]
    rfl

/-- A header is put in its place between the nodes below it and the nodes above it. -/
theorem insert_returns (h : Leads (next m) list (xs ++ ys) 0) (hspread : Spread (xs ++ p :: ys))
    (hsorted : (xs ++ p :: ys).Pairwise (· < ·)) (hend : ys = [] → next m p = 0) :
    Returns (fun k => finsh_block_insert k m list p) xs.length fun r =>
      Leads (next r.1) r.2 (xs ++ p :: ys) 0 ∧ LinksOnly (p :: xs) m r.1 := by
  rcases List.eq_nil_or_concat' xs with rfl | ⟨as, x, rfl⟩
  · have hp := (List.pairwise_cons.mp hsorted).1
    cases ys with
    | nil =>
      have hlist : list = 0 := h
      have hrun (k : Nat) : finsh_block_insert k m list p = some (m, p) := by
        rw [finsh_block_insert, if_pos hlist]
      exact (Returns.const ⟨⟨rfl, hend rfl⟩, LinksOnly.refl _ _⟩).congr hrun
    | cons y ys =>
      obtain rfl : list = y := h.1
      have hlt : p < list := hp list List.mem_cons_self
      have hpos : 0 < list := hspread.pos list (by simp)
      have hrun (k : Nat) : finsh_block_insert k m list p = some (setNext m p list, p) := by
        rw [finsh_block_insert, if_neg (by omega), if_pos hlt]
      refine (Returns.const ⟨?_, LinksOnly.setNext List.mem_cons_self⟩).congr hrun
      refine h.push (next_setNext_self (hspread.lt list (by simp))) fun z hz => ?_
      exact hspread.next_setNext_ne (by simp) (List.mem_cons_of_mem p hz) (Nat.ne_of_gt (hp z hz))
  · rw [List.append_assoc, List.singleton_append] at h hspread hsorted ⊢
    refine ((insert_behind h hspread hsorted hend).more (by simp)).weaken fun r hr => ?_
    exact ⟨hr.1, hr.2.mono (by simp)⟩

/-- A header is taken out of its list. -/
theorem remove_returns (h : Leads (next m) list (xs ++ p :: ys) 0)
    (hspread : Spread (xs ++ p :: ys)) (hsorted : (xs ++ p :: ys).Pairwise (· < ·)) :
    Returns (fun k => finsh_block_remove k m list p) xs.length fun r =>
      Leads (next r.1) r.2 (xs ++ ys) 0 ∧ LinksOnly (p :: xs) m r.1 := by
  have hnodup : (xs ++ p :: ys).Nodup := hsorted.imp Nat.ne_of_lt
  have hpm : p ∈ xs ++ p :: ys := by simp
  rcases List.eq_nil_or_concat' xs with rfl | ⟨as, x, rfl⟩
  · have hlist : list = p := h.1
    have hrun (k : Nat) : finsh_block_remove k m list p = some (setNext m p 0, next m p) := by
      rw [finsh_block_remove, if_pos hlist]
    refine (Returns.const ⟨?_, LinksOnly.setNext List.mem_cons_self⟩).congr hrun
    refine h.2.congr fun y hy => hspread.next_setNext_ne hpm (List.mem_cons_of_mem p hy) ?_
    exact fun heq => (List.nodup_cons.mp hnodup).1 (heq ▸ hy)
  · rw [List.append_assoc, List.singleton_append] at h hspread hsorted hnodup hpm ⊢
    obtain ⟨-, htail, hbefore⟩ := List.pairwise_append.mp hsorted
    have hx := (List.pairwise_cons.mp htail).1
    have hxm : x ∈ as ++ x :: p :: ys := by simp
    have hlist : list ≠ p := by
      obtain ⟨hsearch, -⟩ := Leads.cut.mp h
      cases as with
      | nil => exact hsearch ▸ Nat.ne_of_lt (hx p List.mem_cons_self)
      | cons y as => exact hsearch.1 ▸ Nat.ne_of_lt (hbefore y (by simp) p (by simp))
    have hfound := (findPrev_returns h hspread hnodup).more (m := (as ++ [x]).length) (by simp)
    refine (hfound.bind fun r hr => Returns.const
      (a := (if r = 0 then m else setNext m r (next m p), list)) ?_).congr fun k => ?_
    · subst hr
      rw [if_neg (Nat.ne_of_gt (hspread.pos r hxm))]
      refine ⟨?_, LinksOnly.setNext (by simp)⟩
      refine h.remove (next_setNext_self (next_lt m p)) (fun y hy => ?_) fun y hy => ?_
      · exact hspread.next_setNext_ne hxm (by simp [hy]) (Nat.ne_of_lt (hbefore y hy r (by simp)))
      · exact hspread.next_setNext_ne hxm (by simp [hy]) (Nat.ne_of_gt (hx y (by simp [hy])))
    · rw [finsh_block_remove, if_neg hlist]
      rfl

end Lists

end Ab32Vg1.Finsh.Heap
