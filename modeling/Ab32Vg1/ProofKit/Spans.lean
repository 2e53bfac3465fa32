import Mathlib.Data.List.Pairwise
import Mathlib.Data.List.Basic
import Mathlib.Data.Nat.Basic
import Mathlib.Data.List.Perm.Basic

/-! Spans of addresses laid out around a circular buffer: listed from the oldest on, they ascend and
start again from below at most once.  The lemmas say where the next span may go. -/

namespace Ab32Vg1.ProofKit

/-- The addresses from `start` on, `size` of them. -/
structure Span where
  start : Nat
  size : Nat
  deriving DecidableEq, Repr

namespace Span

/-- The first address after the span. -/
def stop (s : Span) : Nat := s.start + s.size

/-- The first span ends where the second one starts, or before. -/
def Before (a b : Span) : Prop := a.stop ≤ b.start

instance (a b : Span) : Decidable (a.Before b) := inferInstanceAs (Decidable (_ ≤ _))

/-- Two spans with no address in common. -/
def Disjoint (a b : Span) : Prop := a.Before b ∨ b.Before a

instance (a b : Span) : Decidable (a.Disjoint b) := inferInstanceAs (Decidable (_ ∨ _))

theorem Disjoint.symm {a b : Span} (h : a.Disjoint b) : b.Disjoint a := Or.symm h

/-- The spans lie one after the other. -/
def Ascending (l : List Span) : Prop := l.Pairwise Before

/-- The spans ascend and start again from below at most once. -/
def Circular (l : List Span) : Prop := ∃ high low, l = high ++ low ∧ Ascending (low ++ high)

variable {l l' : List Span} {a b head tail new : Span}

theorem Circular.nil : Circular [] := ⟨[], [], rfl, List.Pairwise.nil⟩

theorem Circular.singleton (a : Span) : Circular [a] :=
  ⟨[a], [], rfl, List.pairwise_singleton Before a⟩

theorem Ascending.circular (h : Ascending l) : Circular l :=
  ⟨l, [], (List.append_nil l).symm, h⟩

/-- Spans may go away. -/
theorem Circular.sublist (h : Circular l) (hs : l'.Sublist l) : Circular l' := by
  obtain ⟨high, low, rfl, hasc⟩ := h
  obtain ⟨high', low', rfl, hhigh, hlow⟩ := List.sublist_append_iff.mp hs
  exact ⟨high', low', rfl, hasc.sublist (hlow.append hhigh)⟩

/-- The spans have no address in common. -/
theorem Circular.disjoint (h : Circular l) : l.Pairwise Disjoint := by
  obtain ⟨high, low, rfl, hasc⟩ := h
  have hdis : (low ++ high).Pairwise Disjoint := hasc.imp Or.inl
  exact (List.perm_append_comm.pairwise_iff (fun h => h.symm)).mp hdis

/-- The last of ascending spans is the highest. -/
theorem Ascending.stop_le (h : Ascending l) (htail : l.getLast? = some tail) (ha : a ∈ l) :
    a.stop ≤ tail.stop := by
  obtain ⟨init, rfl⟩ := List.getLast?_eq_some_iff.mp htail
  obtain ⟨-, -, hlink⟩ := List.pairwise_append.mp h
  rcases List.mem_append.mp ha with ha | ha
  · have hb : a.stop ≤ tail.start := hlink a ha tail (by simp)
    exact Nat.le_trans hb (Nat.le_add_right _ _)
  · obtain rfl := List.mem_singleton.mp ha
    exact le_rfl

/-- The first of ascending spans is the lowest. -/
theorem Ascending.start_le (h : Ascending l) (hhead : l.head? = some head) (ha : a ∈ l) :
    head.start ≤ a.start := by
  obtain ⟨rest, rfl⟩ := List.head?_eq_some_iff.mp hhead
  rcases List.mem_cons.mp ha with rfl | ha
  · exact le_rfl
  · have hb : head.stop ≤ a.start := List.rel_of_pairwise_cons h ha
    exact Nat.le_trans (Nat.le_add_right _ _) hb

theorem Ascending.snoc (h : Ascending l) (hnew : ∀ a ∈ l, a.stop ≤ new.start) :
    Ascending (l ++ [new]) := by
  refine List.pairwise_append.mpr ⟨h, List.pairwise_singleton _ _, fun a ha b hb => ?_⟩
  obtain rfl := List.mem_singleton.mp hb
  exact hnew a ha

/-- Spans whose first one is not above the last one have not started again. -/
theorem Circular.ascending (h : Circular l) (hhead : l.head? = some head)
    (htail : l.getLast? = some tail) (hpos : 0 < tail.size) (hle : head.start ≤ tail.start) :
    Ascending l := by
  obtain ⟨high, low, rfl, hasc⟩ := h
  cases high with
  | nil => simpa using hasc
  | cons x xs =>
    obtain rfl : x = head := by simpa using hhead
    by_cases hlow : low = []
    · subst hlow
      simpa using hasc
    · have htail' : low.getLast? = some tail := by
        rw [List.getLast?_append_of_ne_nil _ hlow] at htail
        exact htail
      have hmem := List.mem_of_getLast? htail'
      have hb : tail.stop ≤ x.start :=
        (List.pairwise_append.mp hasc).2.2 tail hmem x List.mem_cons_self
      unfold stop at hb
      omega

/-- Spans whose first one is above the last one have started again. -/
theorem Circular.wrapped (h : Circular l) (hhead : l.head? = some head)
    (htail : l.getLast? = some tail) (hlt : tail.start < head.start) :
    ∃ high low, l = high ++ low ∧ Ascending (low ++ high) ∧ high.head? = some head ∧
      low.getLast? = some tail := by
  obtain ⟨high, low, rfl, hasc⟩ := h
  have hhigh : high ≠ [] := by
    rintro rfl
    have hle := Ascending.start_le (l := low) (by simpa using hasc) (by simpa using hhead)
      (List.mem_of_getLast? (by simpa using htail))
    omega
  have hlow : low ≠ [] := by
    rintro rfl
    have hle := Ascending.start_le (l := high) (by simpa using hasc) (by simpa using hhead)
      (List.mem_of_getLast? (by simpa using htail))
    omega
  refine ⟨high, low, rfl, hasc, ?_, ?_⟩
  · rwa [List.head?_append_of_ne_nil _ hhigh] at hhead
  · rwa [List.getLast?_append_of_ne_nil _ hlow] at htail

/-- The next span goes right after the last of spans that have not started again. -/
theorem Ascending.after (h : Ascending l) (htail : l.getLast? = some tail)
    (hnew : tail.stop ≤ new.start) : Circular (l ++ [new]) :=
  (h.snoc fun _ ha => Nat.le_trans (h.stop_le htail ha) hnew).circular

/-- The next span starts again below the first one. -/
theorem Ascending.below (h : Ascending l) (hhead : l.head? = some head)
    (hnew : new.stop ≤ head.start) : Circular (l ++ [new]) := by
  refine ⟨l, [new], rfl, List.pairwise_cons.mpr ⟨fun a ha => ?_, h⟩⟩
  exact Nat.le_trans hnew (h.start_le hhead ha)

/-- The next span goes between the last span and the first one, after they have started again. -/
theorem Circular.between (h : Circular l) (hhead : l.head? = some head)
    (htail : l.getLast? = some tail) (hlt : tail.start < head.start)
    (hafter : tail.stop ≤ new.start) (hnew : new.stop ≤ head.start) : Circular (l ++ [new]) := by
  obtain ⟨high, low, rfl, hasc, hhead', htail'⟩ := h.wrapped hhead htail hlt
  obtain ⟨hlow, hhigh, hlink⟩ := List.pairwise_append.mp hasc
  refine ⟨high, low ++ [new], List.append_assoc _ _ _, ?_⟩
  refine List.pairwise_append.mpr ⟨?_, hhigh, fun a ha b hb => ?_⟩
  · exact Ascending.snoc hlow fun a ha => Nat.le_trans (Ascending.stop_le hlow htail' ha) hafter
  · rcases List.mem_append.mp ha with ha | ha
    · exact hlink a ha b hb
    · obtain rfl := List.mem_singleton.mp ha
      exact Nat.le_trans hnew (Ascending.start_le hhigh hhead' hb)

end Span

end Ab32Vg1.ProofKit
