import Mathlib.Logic.Relation

/-! Machines that take labelled steps, the states they reach, and the induction rule for what holds
in every reached state. -/

namespace Ab32Vg1.ProofKit

/-- A machine: the states it can start in and its labelled steps. -/
structure Machine (State Label : Type) where
  start : State → Prop
  step : State → Label → State → Prop

namespace Machine

variable {State Label : Type} (M : Machine State Label)

/-- The states reached from `s`. -/
def Reaches (s s' : State) : Prop := Relation.ReflTransGen (fun a b => ∃ l, M.step a l b) s s'

/-- The states reached from a start state. -/
def Reachable (s : State) : Prop := ∃ s0, M.start s0 ∧ M.Reaches s0 s

/-- The machine that takes only the steps that `allowed` permits. -/
def restrict (allowed : State → Label → Prop) : Machine State Label where
  start := M.start
  step s l s' := allowed s l ∧ M.step s l s'

variable {M}

theorem Reachable.start {s : State} (h : M.start s) : M.Reachable s :=
  ⟨s, h, Relation.ReflTransGen.refl⟩

theorem Reachable.next {s s' : State} {l : Label} (h : M.Reachable s) (hs : M.step s l s') :
    M.Reachable s' := by
  obtain ⟨s0, h0, hr⟩ := h
  exact ⟨s0, h0, hr.tail ⟨l, hs⟩⟩

/-- What holds at the start and is kept by every step from a reached state holds in every reached
state. -/
theorem Reachable.invariant {P : State → Prop} {s : State} (h : M.Reachable s)
    (h0 : ∀ s, M.start s → P s)
    (hs : ∀ s l s', M.Reachable s → P s → M.step s l s' → P s') : P s := by
  obtain ⟨s0, hstart, hr⟩ := h
  induction hr with
  | refl => exact h0 s0 hstart
  | tail hr hl ih =>
    obtain ⟨l, hl⟩ := hl
    exact hs _ l _ ⟨s0, hstart, hr⟩ ih hl

/-- The state after a run that a step function computes. -/
def runs (next : State → Label → Option State) : State → List Label → Option State
  | s, [] => some s
  | s, l :: ls => (next s l).bind fun s => runs next s ls

theorem runs_concat (next : State → Label → Option State) (s : State) (ls : List Label) (l : Label) :
    runs next s (ls ++ [l]) = (runs next s ls).bind fun s => next s l := by
  induction ls generalizing s with
  | nil => simp [runs]
  | cons l' ls ih => simp only [List.cons_append, runs, Option.bind_assoc, ih]

theorem Reachable.runs {next : State → Label → Option State} {s s' : State} {ls : List Label}
    (hnext : ∀ s l s', next s l = some s' → M.step s l s') (h : M.Reachable s)
    (hs : runs next s ls = some s') : M.Reachable s' := by
  induction ls generalizing s with
  | nil => exact Option.some.inj hs ▸ h
  | cons l ls ih =>
    obtain ⟨s1, hs1, hs⟩ := Option.bind_eq_some_iff.mp hs
    exact ih (h.next (hnext _ _ _ hs1)) hs

/-- A run of a restricted machine is a run of the machine. -/
theorem Reachable.of_restrict {allowed : State → Label → Prop} {s : State}
    (h : (M.restrict allowed).Reachable s) : M.Reachable s :=
  h.invariant (fun _ h0 => Reachable.start h0) fun _ _ _ _ hr hl => hr.next hl.2

end Machine

end Ab32Vg1.ProofKit
