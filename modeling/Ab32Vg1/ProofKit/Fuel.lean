import Mathlib.Init

/-! Computations that take a bound on the steps they may use.  `Returns run n Post` is total
correctness: a result always satisfies `Post`, and any bound above `n` gives one. -/

namespace Ab32Vg1.ProofKit

structure Returns {α : Type} (run : Nat → Option α) (n : Nat) (Post : α → Prop) : Prop where
  post : ∀ {fuel r}, run fuel = some r → Post r
  total : ∀ {fuel}, n < fuel → ∃ r, run fuel = some r

namespace Returns

variable {α β : Type} {n : Nat} {run : Nat → Option α} {P Q : α → Prop}

theorem weaken (h : Returns run n P) (hpq : ∀ r, P r → Q r) : Returns run n Q :=
  ⟨fun hr => hpq _ (h.post hr), h.total⟩

theorem more {m : Nat} (h : Returns run n P) (hle : n ≤ m) : Returns run m P :=
  ⟨h.post, fun hm => h.total (by omega)⟩

theorem congr {run' : Nat → Option α} (h : Returns run n P) (heq : ∀ k, run' k = run k) :
    Returns run' n P := (funext heq : run' = run) ▸ h

/-- A computation that uses no bound. -/
theorem const {a : α} (ha : P a) : Returns (fun _ => some a) n P :=
  ⟨fun h => Option.some.inj h ▸ ha, fun _ => ⟨a, rfl⟩⟩

/-- A recursion that stops here. -/
theorem stop {a : α} (h0 : run 0 = none) (hs : ∀ k, run (k + 1) = some a) (ha : P a) :
    Returns run n P where
  post {fuel r} h := by
    cases fuel with
    | zero => simp [h0] at h
    | succ k => exact Option.some.inj ((hs k).symm.trans h) ▸ ha
  total {fuel} h := by
    cases fuel with
    | zero => omega
    | succ k => exact ⟨a, hs k⟩

/-- A recursion that goes on with `rest`. -/
theorem step {rest : Nat → Option α} (h0 : run 0 = none) (hs : ∀ k, run (k + 1) = rest k)
    (hr : Returns rest n P) : Returns run (n + 1) P where
  post {fuel r} h := by
    cases fuel with
    | zero => simp [h0] at h
    | succ k => exact hr.post ((hs k).symm.trans h)
  total {fuel} h := by
    cases fuel with
    | zero => omega
    | succ k =>
      rw [hs k]
      exact hr.total (by omega)

/-- One computation after another. -/
theorem bind {f : α → Nat → Option β} {R : β → Prop} (h : Returns run n P)
    (hf : ∀ a, P a → Returns (f a) n R) : Returns (fun k => (run k).bind fun a => f a k) n R where
  post {fuel r} hr := by
    obtain ⟨a, ha, hb⟩ := Option.bind_eq_some_iff.mp hr
    exact (hf a (h.post ha)).post hb
  total {fuel} hlt := by
    obtain ⟨a, ha⟩ := h.total hlt
    obtain ⟨b, hb⟩ := (hf a (h.post ha)).total hlt
    exact ⟨b, by simp [ha, hb]⟩

theorem map {g : α → β} {R : β → Prop} (h : Returns run n P) (hg : ∀ a, P a → R (g a)) :
    Returns (fun k => (run k).map g) n R where
  post {fuel r} hr := by
    obtain ⟨a, ha, rfl⟩ := Option.map_eq_some_iff.mp hr
    exact hg a (h.post ha)
  total {fuel} hlt := by
    obtain ⟨a, ha⟩ := h.total hlt
    exact ⟨g a, by simp [ha]⟩

end Returns

end Ab32Vg1.ProofKit
