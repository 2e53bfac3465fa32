import Ab32Vg1.ProofKit.Fuel
import Mathlib.Data.List.Basic

/-! Segments of singly linked lists, and searches along them.  `next` is the link of each node; the
last link of a segment names the node behind it. -/

namespace Ab32Vg1.ProofKit

variable {α : Type}

/-- From `head` on, the links lead through the nodes of the list, in order, to `tail`. -/
def Leads (next : α → α) : (head : α) → List α → (tail : α) → Prop
  | head, [], tail => head = tail
  | head, x :: xs, tail => head = x ∧ Leads next (next x) xs tail

namespace Leads

variable {next next' : α → α} {head tail x p : α} {xs ys : List α}

theorem append : Leads next head (xs ++ ys) tail ↔
    ∃ mid, Leads next head xs mid ∧ Leads next mid ys tail := by
  induction xs generalizing head with
  | nil => simp [Leads]
  | cons x xs ih => simp only [List.cons_append, Leads, ih, and_assoc, exists_and_left]

/-- A node of the list cuts it in two. -/
theorem cut : Leads next head (xs ++ x :: ys) tail ↔
    Leads next head xs x ∧ Leads next (next x) ys tail := by
  rw [append]
  constructor
  · rintro ⟨mid, h1, rfl, h2⟩
    exact ⟨h1, h2⟩
  · rintro ⟨h1, h2⟩
    exact ⟨x, h1, rfl, h2⟩

/-- Only the links of the nodes of the list matter. -/
theorem congr (h : Leads next head xs tail) (hnext : ∀ x ∈ xs, next' x = next x) :
    Leads next' head xs tail := by
  induction xs generalizing head with
  | nil => exact h
  | cons x xs ih =>
    refine ⟨h.1, ?_⟩
    rw [hnext x List.mem_cons_self]
    exact ih h.2 fun y hy => hnext y (List.mem_cons_of_mem x hy)

/-- A new first node. -/
theorem push (h : Leads next head xs tail) (hp : next' p = head)
    (hnext : ∀ x ∈ xs, next' x = next x) : Leads next' p (p :: xs) tail := by
  refine ⟨rfl, ?_⟩
  rw [hp]
  exact h.congr hnext

/-- A new node behind the node `x`. -/
theorem insert (h : Leads next head (xs ++ x :: ys) tail) (hx : next' x = p)
    (hp : next' p = next x) (hxs : ∀ y ∈ xs, next' y = next y) (hys : ∀ y ∈ ys, next' y = next y) :
    Leads next' head (xs ++ x :: p :: ys) tail := by
  obtain ⟨h1, h2⟩ := cut.mp h
  refine cut.mpr ⟨h1.congr hxs, hx, ?_⟩
  rw [hp]
  exact h2.congr hys

/-- The node behind the node `x` is taken out. -/
theorem remove (h : Leads next head (xs ++ x :: p :: ys) tail) (hx : next' x = next p)
    (hxs : ∀ y ∈ xs, next' y = next y) (hys : ∀ y ∈ ys, next' y = next y) :
    Leads next' head (xs ++ x :: ys) tail := by
  obtain ⟨h1, -, h2⟩ := cut.mp h
  refine cut.mpr ⟨h1.congr hxs, ?_⟩
  rw [hx]
  exact h2.congr hys

theorem head_eq_tail (h : Leads next head [] tail) : head = tail := h

theorem head_eq (h : Leads next head (x :: xs) tail) : head = x := h.1

theorem head_mem (h : Leads next head xs tail) (hne : xs ≠ []) : head ∈ xs := by
  cases xs with
  | nil => exact absurd rfl hne
  | cons x xs => exact h.1 ▸ List.mem_cons_self

/-- The link of a node leads to a node behind it or to the tail. -/
theorem next_mem (h : Leads next head (xs ++ x :: ys) tail) :
    next x ∈ ys ∨ ys = [] ∧ next x = tail := by
  cases ys with
  | nil => exact Or.inr ⟨rfl, (cut.mp h).2⟩
  | cons y ys => exact Or.inl ((cut.mp h).2.1 ▸ List.mem_cons_self)

/-- The nodes and the tail determine the head. -/
theorem head_unique {head' : α} (h : Leads next head xs tail) (h' : Leads next' head' xs tail) :
    head = head' := by
  cases xs with
  | nil => exact h.trans h'.symm
  | cons x xs => exact h.1.trans h'.1.symm

/-- The links determine the nodes before a tail that is none of them. -/
theorem unique (hx : Leads next head xs tail) (hy : Leads next head ys tail) (htx : tail ∉ xs)
    (hty : tail ∉ ys) : xs = ys := by
  induction xs generalizing head ys with
  | nil =>
    cases ys with
    | nil => rfl
    | cons y ys =>
      have hhead : tail = y := hx.symm.trans hy.1
      exact absurd (hhead ▸ List.mem_cons_self) hty
  | cons x xs ih =>
    cases ys with
    | nil =>
      have hhead : tail = x := hy.symm.trans hx.1
      exact absurd (hhead ▸ List.mem_cons_self) htx
    | cons y ys =>
      obtain rfl : x = y := hx.1.symm.trans hy.1
      rw [ih hx.2 hy.2 (fun hm => htx (List.mem_cons_of_mem x hm)) fun hm =>
        hty (List.mem_cons_of_mem x hm)]

end Leads

/-! ### Searches -/

/-- `for (a = head; !stop(a); a = next(a));`, in less than the bound's number of turns. -/
def seek (next : α → α) (stop : α → Prop) [DecidablePred stop] : Nat → α → Option α
  | 0, _ => none
  | n + 1, a => if stop a then some a else seek next stop n (next a)

variable {next : α → α} {stop : α → Prop} [DecidablePred stop] {head tail : α} {xs ys : List α}

/-- A search stops behind the nodes that do not stop it. -/
theorem Leads.seek (h : Leads next head xs tail) (hxs : ∀ x ∈ xs, ¬stop x) (htail : stop tail) :
    Returns (fun k => ProofKit.seek next stop k head) xs.length (· = tail) := by
  induction xs generalizing head with
  | nil => exact Returns.stop rfl (fun k => by rw [ProofKit.seek, if_pos (h ▸ htail)]) h
  | cons x xs ih =>
    obtain ⟨rfl, hrest⟩ := h
    have hhead : ¬stop head := hxs head List.mem_cons_self
    exact Returns.step rfl (fun k => by rw [ProofKit.seek, if_neg hhead])
      (ih hrest fun y hy => hxs y (List.mem_cons_of_mem head hy))

/-- A search along a list stops at one of its nodes, or at the tail when no node stops it. -/
theorem Leads.seek_mem (h : Leads next head xs tail) (htail : stop tail) :
    Returns (fun k => ProofKit.seek next stop k head) xs.length
      (fun r => (r = tail ∧ ∀ x ∈ xs, ¬stop x) ∨ (r ∈ xs ∧ stop r)) := by
  induction xs generalizing head with
  | nil =>
    exact Returns.stop rfl (fun k => by rw [ProofKit.seek, if_pos (h ▸ htail)])
      (Or.inl ⟨h, by simp⟩)
  | cons x xs ih =>
    obtain ⟨rfl, hrest⟩ := h
    by_cases hstop : stop head
    · have hfound : Returns (fun k => ProofKit.seek next stop k head) 0
          (fun r => (r = tail ∧ ∀ x ∈ head :: xs, ¬stop x) ∨ (r ∈ head :: xs ∧ stop r)) :=
        Returns.stop rfl (fun k => by rw [ProofKit.seek, if_pos hstop])
          (Or.inr ⟨List.mem_cons_self, hstop⟩)
      exact hfound.more (Nat.zero_le _)
    · refine Returns.step rfl (fun k => by rw [ProofKit.seek, if_neg hstop])
        ((ih hrest).weaken fun r hr => ?_)
      rcases hr with ⟨hr, hnone⟩ | ⟨hr, hr'⟩
      · exact Or.inl ⟨hr, List.forall_mem_cons.mpr ⟨hstop, hnone⟩⟩
      · exact Or.inr ⟨List.mem_cons_of_mem head hr, hr'⟩

end Ab32Vg1.ProofKit
