import Mathlib.Init

/-! The levels of a two-wire bus over time and the conditions that they encode.  The data line may
change while the clock is low; a change while the clock is high is a start or a stop, and a clock
period without one carries a bit. -/

namespace Ab32Vg1.ProofKit

inductive WireEvent where
  | start
  | stop
  | bit (level : Bool)
  deriving DecidableEq, Repr

/-- A reader of the bus: the last levels of data and clock, whether the data line has moved in the
present high period of the clock, and what has been read. -/
structure WireDecoder where
  sda : Bool
  scl : Bool
  moved : Bool
  events : List WireEvent
  deriving DecidableEq, Repr

namespace WireDecoder

/-- Both lines are high and nothing has been read. -/
def idle : WireDecoder := ⟨true, true, false, []⟩

def sample (d : WireDecoder) (level : Bool × Bool) : WireDecoder :=
  match d.scl, level.2 with
  | true, true =>
    if d.sda = level.1 then d
    else ⟨level.1, true, true, d.events ++ [if d.sda then .start else .stop]⟩
  | true, false => ⟨level.1, false, false, if d.moved then d.events else d.events ++ [.bit d.sda]⟩
  | false, scl => ⟨level.1, scl, false, d.events⟩

def run (d : WireDecoder) (levels : List (Bool × Bool)) : WireDecoder := levels.foldl sample d

theorem run_snoc (d : WireDecoder) (levels : List (Bool × Bool)) (level : Bool × Bool) :
    d.run (levels ++ [level]) = (d.run levels).sample level := by
  simp [run]

variable {sda level scl : Bool} {events : List WireEvent}

@[simp] theorem sample_low :
    (⟨sda, false, false, events⟩ : WireDecoder).sample (level, scl) = ⟨level, scl, false, events⟩ :=
  rfl

/-- The clock falls after a period in which the data line kept its level. -/
@[simp] theorem sample_fall :
    (⟨sda, true, false, events⟩ : WireDecoder).sample (level, false) =
      ⟨level, false, false, events ++ [.bit sda]⟩ :=
  rfl

@[simp] theorem sample_fall_moved :
    (⟨sda, true, true, events⟩ : WireDecoder).sample (level, false) =
      ⟨level, false, false, events⟩ :=
  rfl

@[simp] theorem sample_same {moved : Bool} :
    (⟨sda, true, moved, events⟩ : WireDecoder).sample (sda, true) = ⟨sda, true, moved, events⟩ := by
  simp [sample]

@[simp] theorem sample_start {moved : Bool} :
    (⟨true, true, moved, events⟩ : WireDecoder).sample (false, true) =
      ⟨false, true, true, events ++ [.start]⟩ :=
  rfl

@[simp] theorem sample_stop {moved : Bool} :
    (⟨false, true, moved, events⟩ : WireDecoder).sample (true, true) =
      ⟨true, true, true, events ++ [.stop]⟩ :=
  rfl

end WireDecoder

end Ab32Vg1.ProofKit
