import Mathlib.Data.List.Basic

/-! Insertion into an ordered list, behind the elements of the same rank. -/

namespace Ab32Vg1.ProofKit

variable {α : Type}

/-- The new element stands in front of the first one that has to come later. -/
def insertStable (later : α → Bool) (x : α) : List α → List α
  | [] => [x]
  | y :: ys => if later y then x :: y :: ys else y :: insertStable later x ys

variable {later : α → Bool} {x : α} {l : List α}

theorem insertStable_perm : (insertStable later x l).Perm (x :: l) := by
  induction l with
  | nil => exact List.Perm.refl _
  | cons y ys ih =>
    unfold insertStable
    split
    · exact List.Perm.refl _
    · exact (ih.cons y).trans (List.Perm.swap x y ys)

theorem mem_insertStable {y : α} : y ∈ insertStable later x l ↔ y = x ∨ y ∈ l := by
  rw [insertStable_perm.mem_iff, List.mem_cons]

/-- The order is kept: what comes later than the new element does so with everything behind it. -/
theorem insertStable_pairwise {R : α → α → Prop} (h : l.Pairwise R)
    (hlater : ∀ y ∈ l, later y = true → R x y)
    (hbehind : ∀ y ∈ l, ∀ z ∈ l, later y = true → R y z → R x z)
    (hbefore : ∀ y ∈ l, later y = false → R y x) : (insertStable later x l).Pairwise R := by
  induction l with
  | nil => exact List.pairwise_singleton R x
  | cons y ys ih =>
    obtain ⟨hy, hys⟩ := List.pairwise_cons.mp h
    unfold insertStable
    by_cases hl : later y = true
    · rw [if_pos hl]
      refine List.pairwise_cons.mpr ⟨fun z hz => ?_, h⟩
      rcases List.mem_cons.mp hz with rfl | hz'
      · exact hlater z hz hl
      · exact hbehind y List.mem_cons_self z hz hl (hy z hz')
    · rw [if_neg hl]
      refine List.pairwise_cons.mpr ⟨fun z hz => ?_, ih hys ?_ ?_ ?_⟩
      · rcases mem_insertStable.mp hz with rfl | hz
        · exact hbefore y List.mem_cons_self (by simpa using hl)
        · exact hy z hz
      · exact fun z hz => hlater z (List.mem_cons_of_mem y hz)
      · exact fun z hz w hw => hbehind z (List.mem_cons_of_mem y hz) w (List.mem_cons_of_mem y hw)
      · exact fun z hz => hbefore z (List.mem_cons_of_mem y hz)

end Ab32Vg1.ProofKit
