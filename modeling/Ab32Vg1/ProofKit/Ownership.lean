import Mathlib.Data.List.Nodup
import Mathlib.Data.List.Perm.Subperm
import Mathlib.Data.List.Range
import Mathlib.Logic.Function.Basic

/-! A pool of things, each of which is either shared or held by one owner. -/

namespace Ab32Vg1.ProofKit

variable {α ι : Type}

/-- The shared things and the held ones are the pool, and nothing is in two places. -/
structure Owned (pool : α → Prop) (shared : List α) (held : ι → Option α) : Prop where
  nodup : shared.Nodup
  alone : ∀ o x, held o = some x → x ∉ shared ∧ ∀ o', held o' = some x → o' = o
  all : ∀ x, pool x ↔ x ∈ shared ∨ ∃ o, held o = some x

namespace Owned

variable {pool : α → Prop} {shared shared' : List α} {held : ι → Option α} {o : ι} {x : α}

/-- Where the shared things lie does not matter. -/
theorem perm (h : Owned pool shared held) (hp : shared.Perm shared') : Owned pool shared' held where
  nodup := hp.nodup_iff.mp h.nodup
  alone o x hx := by
    rw [← hp.mem_iff]
    exact h.alone o x hx
  all x := by
    rw [← hp.mem_iff]
    exact h.all x

/-- Not more things are shared than there are. -/
theorem length_le {n : Nat} {shared : List Nat} {held : ι → Option Nat}
    (h : Owned (· < n) shared held) : shared.length ≤ n := by
  have hsub : shared ⊆ List.range n := fun x hx =>
    List.mem_range.mpr ((h.all x).mpr (Or.inl hx))
  have hle := (h.nodup.subperm hsub).length_le
  rwa [List.length_range] at hle

variable [DecidableEq ι]

/-- An owner with nothing takes a shared thing. -/
theorem take (h : Owned pool (x :: shared) held) (ho : held o = none) :
    Owned pool shared (Function.update held o (some x)) := by
  obtain ⟨hx, hnd⟩ := List.nodup_cons.mp h.nodup
  have hfree : ∀ o', held o' ≠ some x := fun o' ho' =>
    (h.alone o' x ho').1 List.mem_cons_self
  refine ⟨hnd, fun o' y hy => ?_, fun y => ?_⟩
  · by_cases hoo : o' = o
    · subst hoo
      rw [Function.update_self] at hy
      obtain rfl := Option.some.inj hy
      refine ⟨hx, fun o' ho' => ?_⟩
      by_contra hne
      rw [Function.update_of_ne hne] at ho'
      exact hfree o' ho'
    · rw [Function.update_of_ne hoo] at hy
      obtain ⟨h1, h2⟩ := h.alone o' y hy
      refine ⟨fun hm => h1 (List.mem_cons_of_mem x hm), fun o'' ho'' => ?_⟩
      by_cases hoo' : o'' = o
      · subst hoo'
        rw [Function.update_self] at ho''
        obtain rfl := Option.some.inj ho''
        exact absurd hy (hfree o')
      · rw [Function.update_of_ne hoo'] at ho''
        exact h2 o'' ho''
  · rw [h.all y]
    constructor
    · rintro (hy | ⟨o', ho'⟩)
      · rcases List.mem_cons.mp hy with rfl | hy
        · exact Or.inr ⟨o, Function.update_self ..⟩
        · exact Or.inl hy
      · have hoo : o' ≠ o := fun heq => by rw [heq, ho] at ho'; cases ho'
        exact Or.inr ⟨o', by rw [Function.update_of_ne hoo]; exact ho'⟩
    · rintro (hy | ⟨o', ho'⟩)
      · exact Or.inl (List.mem_cons_of_mem x hy)
      · by_cases hoo : o' = o
        · subst hoo
          rw [Function.update_self] at ho'
          obtain rfl := Option.some.inj ho'
          exact Or.inl List.mem_cons_self
        · rw [Function.update_of_ne hoo] at ho'
          exact Or.inr ⟨o', ho'⟩

/-- An owner gives back what it holds. -/
theorem give (h : Owned pool shared held) (ho : held o = some x) :
    Owned pool (x :: shared) (Function.update held o none) := by
  have hx := h.alone o x ho
  have hne : ∀ o' y, Function.update held o none o' = some y → o' ≠ o ∧ held o' = some y := by
    intro o' y hy
    by_cases hoo : o' = o
    · subst hoo
      rw [Function.update_self] at hy
      cases hy
    · rw [Function.update_of_ne hoo] at hy
      exact ⟨hoo, hy⟩
  refine ⟨List.nodup_cons.mpr ⟨hx.1, h.nodup⟩, fun o' y hy => ?_, fun y => ?_⟩
  · obtain ⟨hoo, hy⟩ := hne o' y hy
    obtain ⟨h1, h2⟩ := h.alone o' y hy
    refine ⟨fun hm => ?_, fun o'' ho'' => h2 o'' (hne o'' y ho'').2⟩
    rcases List.mem_cons.mp hm with rfl | hm
    · exact hoo (hx.2 o' hy)
    · exact h1 hm
  · rw [h.all y]
    constructor
    · rintro (hy | ⟨o', ho'⟩)
      · exact Or.inl (List.mem_cons_of_mem x hy)
      · by_cases hoo : o' = o
        · subst hoo
          obtain rfl := Option.some.inj (ho.symm.trans ho')
          exact Or.inl List.mem_cons_self
        · exact Or.inr ⟨o', by rw [Function.update_of_ne hoo]; exact ho'⟩
    · rintro (hy | ⟨o', ho'⟩)
      · rcases List.mem_cons.mp hy with rfl | hy
        · exact Or.inr ⟨o, ho⟩
        · exact Or.inl hy
      · exact Or.inr ⟨o', (hne o' y ho').2⟩

end Owned

end Ab32Vg1.ProofKit
