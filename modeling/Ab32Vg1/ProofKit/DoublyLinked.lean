import Mathlib.Data.List.Basic

/-! Doubly linked lists.  A chain leads from one node to another through the nodes of a list; a ring
is a chain from a header back to it.  `next` and `prev` are the links of each node. -/

namespace Ab32Vg1.ProofKit

variable {α : Type}

/-- From `a` the links lead through the nodes of the list, in order, to `z`, and back. -/
def Chained (next prev : α → α) : (a : α) → List α → (z : α) → Prop
  | a, [], z => next a = z ∧ prev z = a
  | a, x :: xs, z => next a = x ∧ prev x = a ∧ Chained next prev x xs z

namespace Chained

variable {next prev next' prev' : α → α} {a p x z : α} {l l1 l2 : List α}

theorem append :
    Chained next prev a (l1 ++ x :: l2) z ↔
      Chained next prev a l1 x ∧ Chained next prev x l2 z := by
  induction l1 generalizing a with
  | nil => simp [Chained, and_assoc]
  | cons y ys ih => simp [Chained, ih, and_assoc]

/-- Only the links between the nodes of the chain matter. -/
theorem congr (h : Chained next prev a l z) (hnext : ∀ y ∈ a :: l, next' y = next y)
    (hprev : ∀ y ∈ l ++ [z], prev' y = prev y) : Chained next' prev' a l z := by
  induction l generalizing a with
  | nil => exact ⟨(hnext a (by simp)).trans h.1, (hprev z (by simp)).trans h.2⟩
  | cons y ys ih =>
    refine ⟨(hnext a (by simp)).trans h.1, (hprev y (by simp)).trans h.2.1, ih h.2.2 ?_ ?_⟩
    · exact fun w hw => hnext w (List.mem_cons_of_mem a hw)
    · exact fun w hw => hprev w (List.mem_cons_of_mem y hw)

/-- The links determine the nodes up to the end. -/
theorem unique (h : Chained next prev a l1 z) (h' : Chained next prev a l2 z) (h1 : z ∉ l1)
    (h2 : z ∉ l2) : l1 = l2 := by
  induction l1 generalizing a l2 with
  | nil =>
    cases l2 with
    | nil => rfl
    | cons y ys => exact absurd (h.1.symm.trans h'.1) fun heq => h2 (by simp [heq])
  | cons x xs ih =>
    cases l2 with
    | nil => exact absurd (h'.1.symm.trans h.1) fun heq => h1 (by simp [heq])
    | cons y ys =>
      obtain rfl : x = y := h.1.symm.trans h'.1
      simp only [List.mem_cons, not_or] at h1 h2
      rw [ih h.2.2 h'.2.2 h1.2 h2.2]

/-- The links between two nodes are inverse to each other. -/
theorem prev_next (h : Chained next prev a l z) : ∀ y ∈ a :: l, prev (next y) = y := by
  induction l generalizing a with
  | nil =>
    intro y hy
    obtain rfl : y = a := by simpa using hy
    rw [h.1, h.2]
  | cons x xs ih =>
    intro y hy
    rcases List.mem_cons.mp hy with rfl | hy
    · rw [h.1, h.2.1]
    · exact ih h.2.2 y hy

theorem next_mem (h : Chained next prev a l z) : ∀ y ∈ a :: l, next y ∈ l ++ [z] := by
  induction l generalizing a with
  | nil =>
    intro y hy
    obtain rfl : y = a := by simpa using hy
    simp [h.1]
  | cons x xs ih =>
    intro y hy
    rcases List.mem_cons.mp hy with rfl | hy
    · simp [h.1]
    · exact List.mem_cons_of_mem x (ih h.2.2 y hy)

theorem prev_mem (h : Chained next prev a l z) : ∀ y ∈ l ++ [z], prev y ∈ a :: l := by
  induction l generalizing a with
  | nil =>
    intro y hy
    obtain rfl : y = z := by simpa using hy
    simp [h.2]
  | cons x xs ih =>
    intro y hy
    rcases List.mem_cons.mp hy with rfl | hy
    · simp [h.2.1]
    · exact List.mem_cons_of_mem a (ih h.2.2 y hy)

variable [DecidableEq α]

/-- A new node behind the first one. -/
theorem insert (h : Chained next prev p l z) (hp : p ∉ l) (hnd : (l ++ [z]).Nodup)
    (hxn : next' x = next p) (hxp : prev' x = p)
    (hnext : ∀ y, y ∈ p :: l → next' y = if y = p then x else next y)
    (hprev : ∀ y, y ∈ l ++ [z] → prev' y = if y = next p then x else prev y) :
    Chained next' prev' p (x :: l) z := by
  have hfirst : next' p = x := by simpa using hnext p (by simp)
  cases l with
  | nil =>
    obtain ⟨hz, -⟩ := h
    have hlast := hprev z (by simp)
    rw [hz, if_pos rfl] at hlast
    exact ⟨hfirst, hxp, hxn.trans hz, hlast⟩
  | cons y ys =>
    obtain ⟨hy, -, hrest⟩ := h
    have hsecond := hprev y (by simp)
    rw [hy, if_pos rfl] at hsecond
    refine ⟨hfirst, hxp, hxn.trans hy, hsecond, hrest.congr (fun w hw => ?_) fun w hw => ?_⟩
    · have hne : w ≠ p := fun heq => hp (heq ▸ hw)
      rw [hnext w (List.mem_cons_of_mem p hw), if_neg hne]
    · have hne : w ≠ y := fun heq => (List.nodup_cons.mp hnd).1 (heq ▸ hw)
      rw [hprev w (List.mem_cons_of_mem y hw), hy, if_neg hne]

/-- A new node behind the node `p` of a ring. -/
theorem insert_behind (h : Chained next prev a (l1 ++ p :: l2) a)
    (hnd : (a :: (l1 ++ p :: l2)).Nodup) (hxn : next' x = next p) (hxp : prev' x = p)
    (hnext : ∀ y, y ∈ a :: (l1 ++ p :: l2) → next' y = if y = p then x else next y)
    (hprev : ∀ y, y ∈ a :: (l1 ++ p :: l2) → prev' y = if y = next p then x else prev y) :
    Chained next' prev' a (l1 ++ p :: x :: l2) a := by
  obtain ⟨hfront, hback⟩ := append.mp h
  obtain ⟨ha, hl⟩ := List.nodup_cons.mp hnd
  obtain ⟨hl1, hl2, hdis⟩ := List.nodup_append.mp hl
  obtain ⟨hp2, hl2'⟩ := List.nodup_cons.mp hl2
  have hnp : next p ∈ l2 ++ [a] := hback.next_mem p (by simp)
  refine append.mpr ⟨hfront.congr (fun y hy => ?_) fun y hy => ?_, ?_⟩
  · have hne : y ≠ p := by
      rintro rfl
      rcases List.mem_cons.mp hy with rfl | hy
      · simp at ha
      · exact hdis _ hy _ (by simp) rfl
    rw [hnext y (by simp at hy ⊢; tauto), if_neg hne]
  · have hne : y ≠ next p := by
      intro heq
      rw [← heq] at hnp
      simp only [List.mem_append, List.mem_singleton] at hy hnp
      rcases hy with hy | rfl
      · rcases hnp with hnp | rfl
        · exact hdis y hy y (by simp [hnp]) rfl
        · exact ha (by simp [hy])
      · rcases hnp with hnp | rfl
        · exact hp2 hnp
        · simp at ha
    rw [hprev y (by simp at hy ⊢; tauto), if_neg hne]
  · refine hback.insert hp2 ?_ hxn hxp (fun y hy => hnext y (by simp at hy ⊢; tauto))
      fun y hy => hprev y (by simp at hy ⊢; tauto)
    refine List.nodup_append.mpr ⟨hl2', by simp, ?_⟩
    rintro y hy w hw rfl
    obtain rfl : y = a := by simpa using hw
    exact ha (by simp [hy])

/-- A node leaves a chain whose end is none of its nodes. -/
theorem remove (h : Chained next prev a (l1 ++ x :: l2) z) (hnd : (a :: (l1 ++ x :: l2)).Nodup)
    (hz : z ∉ l1 ++ x :: l2)
    (hnext : ∀ y, y ∈ a :: (l1 ++ l2) → next' y = if y = prev x then next x else next y)
    (hprev : ∀ y, y ∈ l1 ++ l2 ++ [z] → prev' y = if y = next x then prev x else prev y) :
    Chained next' prev' a (l1 ++ l2) z := by
  induction l1 generalizing a with
  | nil =>
    obtain ⟨-, hpx, hrest⟩ := h
    obtain ⟨ha, hx, hnd2⟩ : a ∉ x :: l2 ∧ x ∉ l2 ∧ l2.Nodup := by simpa using hnd
    have hfirst := hnext a (by simp)
    rw [hpx, if_pos rfl] at hfirst
    rw [hpx] at hnext hprev
    cases l2 with
    | nil =>
      obtain ⟨hxz, -⟩ := hrest
      have hlast := hprev z (by simp)
      rw [hxz, if_pos rfl] at hlast
      exact ⟨hfirst.trans hxz, hlast⟩
    | cons y ys =>
      obtain ⟨hxy, -, hys⟩ := hrest
      have hsecond := hprev y (by simp)
      rw [hxy, if_pos rfl] at hsecond
      refine ⟨hfirst.trans hxy, hsecond, hys.congr (fun w hw => ?_) fun w hw => ?_⟩
      · have hne : w ≠ a := fun heq => ha (heq ▸ List.mem_cons_of_mem x hw)
        rw [hnext w (by simp at hw ⊢; tauto), if_neg hne]
      · have hne : w ≠ y := by
          rintro rfl
          rcases List.mem_append.mp hw with hw | hw
          · exact (List.nodup_cons.mp hnd2).1 hw
          · obtain rfl : w = z := by simpa using hw
            exact hz (by simp)
        rw [hprev w (by simp at hw ⊢; tauto), hxy, if_neg hne]
  | cons y ys ih =>
    obtain ⟨hay, hya, hrest⟩ := h
    obtain ⟨ha, hnd'⟩ := List.nodup_cons.mp hnd
    have hpx : prev x ∈ y :: ys := (append.mp hrest).1.prev_mem x (by simp)
    have hnx : next x ∈ l2 ++ [z] := (append.mp hrest).2.next_mem x (by simp)
    refine ⟨?_, ?_, ih hrest hnd' (fun hmem => hz (by simp at hmem ⊢; tauto)) (fun w hw => ?_)
      fun w hw => ?_⟩
    · have hne : a ≠ prev x := by
        intro heq
        rw [← heq] at hpx
        exact ha (by simp at hpx ⊢; tauto)
      rw [hnext a (by simp), if_neg hne, hay]
    · have hne : y ≠ next x := by
        intro heq
        rw [← heq] at hnx
        rcases List.mem_append.mp hnx with hmem | hmem
        · exact (List.nodup_cons.mp hnd').1 (by simp [hmem])
        · obtain rfl : y = z := by simpa using hmem
          exact hz (by simp)
      rw [hprev y (by simp), if_neg hne, hya]
    · exact hnext w (by simp at hw ⊢; tauto)
    · exact hprev w (by simp at hw ⊢; tauto)

end Chained

end Ab32Vg1.ProofKit
