import Mathlib.Logic.Function.Basic
import Mathlib.Data.List.Basic

/-! Singly linked lists that end in a null link.  `next` is the link of each node. -/

namespace Ab32Vg1.ProofKit

variable {α : Type}

/-- From `head` on, the links lead through the nodes of the list, in order, to the end. -/
def Linked (next : α → Option α) : Option α → List α → Prop
  | head, [] => head = none
  | head, x :: xs => head = some x ∧ Linked next (next x) xs

namespace Linked

variable {next next' : α → Option α} {head : Option α} {x : α} {xs ys : List α}

theorem head_eq (h : Linked next head xs) : head = xs.head? := by
  cases xs with
  | nil => exact h
  | cons x xs => exact h.1

theorem tail (h : Linked next head (x :: xs)) : Linked next (next x) xs := h.2

/-- Only the links of the nodes of the list matter. -/
theorem congr (h : Linked next head xs) (hnext : ∀ x ∈ xs, next' x = next x) :
    Linked next' head xs := by
  induction xs generalizing head with
  | nil => exact h
  | cons x xs ih =>
    refine ⟨h.1, ?_⟩
    rw [hnext x List.mem_cons_self]
    exact ih h.2 fun y hy => hnext y (List.mem_cons_of_mem x hy)

variable [DecidableEq α]

theorem update_of_not_mem {link : Option α} (h : Linked next head xs) (hx : x ∉ xs) :
    Linked (Function.update next x link) head xs := by
  apply h.congr
  intro y hy
  have hyx : y ≠ x := fun heq => hx (heq ▸ hy)
  rw [Function.update_of_ne hyx]

/-- A new first node. -/
theorem push (h : Linked next head xs) (hx : x ∉ xs) :
    Linked (Function.update next x head) (some x) (x :: xs) := by
  refine ⟨rfl, ?_⟩
  rw [Function.update_self]
  exact h.update_of_not_mem hx

/-- A new last node: the link of the old one leads to it. -/
theorem snoc {last : α} (h : Linked next head xs) (hlast : xs.getLast? = some last)
    (hnd : xs.Nodup) (hx : x ∉ xs) (hend : next x = none) :
    Linked (Function.update next last (some x)) head (xs ++ [x]) := by
  induction xs generalizing head with
  | nil => simp at hlast
  | cons y ys ih =>
    refine ⟨h.1, ?_⟩
    have hxy : x ≠ y := fun heq => hx (heq ▸ List.mem_cons_self)
    cases ys with
    | nil =>
      obtain rfl : y = last := by simpa using hlast
      rw [Function.update_self]
      refine ⟨rfl, ?_⟩
      rw [Function.update_of_ne hxy]
      exact hend
    | cons z zs =>
      have hlast' : (z :: zs).getLast? = some last := by simpa using hlast
      have hmem : last ∈ z :: zs := List.mem_of_getLast? hlast'
      have hne : y ≠ last := fun heq => (List.nodup_cons.mp hnd).1 (heq ▸ hmem)
      rw [Function.update_of_ne hne]
      exact ih h.2 hlast' (List.nodup_cons.mp hnd).2 fun hm => hx (List.mem_cons_of_mem y hm)

end Linked

/-- The last element after the first one is taken. -/
theorem getLast?_tail_of_nodup [DecidableEq α] {x : α} {xs : List α} (hnd : (x :: xs).Nodup) :
    (if (x :: xs).getLast? = some x then none else (x :: xs).getLast?) = xs.getLast? := by
  cases xs with
  | nil => simp
  | cons y ys =>
    have hne : (y :: ys).getLast? ≠ some x := fun h =>
      (List.nodup_cons.mp hnd).1 (List.mem_of_getLast? h)
    rw [List.getLast?_cons_cons, if_neg hne]

end Ab32Vg1.ProofKit
