import Mathlib.Data.List.Basic

/-! The longest list that two lists begin with, and the longest one that several lists begin with. -/

namespace Ab32Vg1.ProofKit

variable {α : Type} [DecidableEq α]

@[grind] def commonPrefix : List α → List α → List α
  | a :: s, b :: t => if a = b then a :: commonPrefix s t else []
  | _, _ => []

theorem commonPrefix_self (s : List α) : commonPrefix s s = s := by
  induction s with
  | nil => rfl
  | cons a s ih => rw [commonPrefix, if_pos rfl, ih]

/-- What two lists begin with begins their common part, and nothing else does. -/
theorem isPrefix_commonPrefix_iff {p s t : List α} :
    p <+: commonPrefix s t ↔ p <+: s ∧ p <+: t := by
  induction s generalizing p t with
  | nil =>
    rw [commonPrefix]
    · exact ⟨fun h => ⟨h, h.trans List.nil_prefix⟩, fun h => h.1⟩
    · intro a s b t h
      cases h
  | cons a s ih =>
    cases t with
    | nil =>
      rw [commonPrefix]
      · exact ⟨fun h => ⟨h.trans List.nil_prefix, h⟩, fun h => h.2⟩
      · intro a s b t _ h
        cases h
    | cons b t =>
      cases p with
      | nil => simp
      | cons x p =>
        rw [commonPrefix]
        by_cases hab : a = b
        · subst hab
          rw [if_pos rfl, List.cons_prefix_cons, List.cons_prefix_cons, List.cons_prefix_cons, ih]
          exact ⟨fun h => ⟨⟨h.1, h.2.1⟩, h.1, h.2.2⟩, fun h => ⟨h.1.1, h.1.2, h.2.2⟩⟩
        · rw [if_neg hab, List.cons_prefix_cons, List.cons_prefix_cons, List.prefix_nil]
          refine ⟨fun h => (List.cons_ne_nil _ _ h).elim, fun h => ?_⟩
          exact absurd (h.1.1.symm.trans h.2.1) hab

/-- The same of several lists. -/
theorem isPrefix_foldl_commonPrefix_iff {p s : List α} {ts : List (List α)} :
    p <+: ts.foldl commonPrefix s ↔ p <+: s ∧ ∀ t ∈ ts, p <+: t := by
  induction ts generalizing s with
  | nil => simp
  | cons t ts ih =>
    rw [List.foldl_cons, ih, isPrefix_commonPrefix_iff, List.forall_mem_cons]
    exact ⟨fun h => ⟨h.1.1, h.1.2, h.2⟩, fun h => ⟨⟨h.1, h.2.1⟩, h.2.2⟩⟩

end Ab32Vg1.ProofKit
