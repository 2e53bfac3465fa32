import Mathlib.Algebra.Order.Ring.Nat
import Mathlib.Data.Int.Order.Basic

/-! Straight code of a stack machine: each turn has a number of bytes and a move of the stack pointer.
The effect of a sequence says how many bytes it has, how many values it needs below it, and where it
leaves the stack pointer. -/

namespace Ab32Vg1.ProofKit

/-- A turn of the machine: the bytes of its code, and how it moves the stack pointer. -/
structure StackTurn where
  bytes : Nat
  move : Int
  deriving DecidableEq, Repr

/-- The places of the stack pointer from `h` on. -/
def heights : Int → List StackTurn → List Int
  | h, [] => [h]
  | h, t :: ts => h :: heights (h + t.move) ts

/-- The effect of turns: their bytes, the values they need below them, their moves up, and the move of
all of them. -/
@[ext] structure StackEffect where
  bytes : Nat
  need : Nat
  rise : Nat
  net : Int
  net_ge : -(need : Int) ≤ net
  deriving DecidableEq, Repr

namespace StackEffect

def none : StackEffect := ⟨0, 0, 0, 0, le_refl 0⟩

/-- One effect after the other: the second finds what the first leaves. -/
def seq (e f : StackEffect) : StackEffect where
  bytes := e.bytes + f.bytes
  need := max e.need (f.need - e.net).toNat
  rise := e.rise + f.rise
  net := e.net + f.net
  net_ge := by
    have he := e.net_ge
    have hf := f.net_ge
    omega

theorem none_seq (e : StackEffect) : none.seq e = e := by
  ext <;> simp [seq, none]

theorem seq_none (e : StackEffect) : e.seq none = e := by
  have he := e.net_ge
  ext
  · rfl
  · show max e.need ((0 : Nat) - e.net).toNat = e.need
    omega
  · rfl
  · exact Int.add_zero _

theorem seq_assoc (e f g : StackEffect) : (e.seq f).seq g = e.seq (f.seq g) := by
  ext
  · exact Nat.add_assoc _ _ _
  · show max (max e.need (f.need - e.net).toNat) (g.need - (e.net + f.net)).toNat =
      max e.need ((max f.need (g.need - f.net).toNat : Nat) - e.net).toNat
    omega
  · exact Nat.add_assoc _ _ _
  · exact Int.add_assoc _ _ _

/-- The effect of one turn. -/
def ofTurn (t : StackTurn) : StackEffect where
  bytes := t.bytes
  need := (-t.move).toNat
  rise := t.move.toNat
  net := t.move
  net_ge := by omega

def ofTurns : List StackTurn → StackEffect
  | [] => none
  | t :: ts => (ofTurn t).seq (ofTurns ts)

theorem ofTurns_append (a b : List StackTurn) : ofTurns (a ++ b) = (ofTurns a).seq (ofTurns b) := by
  induction a with
  | nil => exact (none_seq _).symm
  | cons t a ih => rw [List.cons_append, ofTurns, ih, ← seq_assoc, ofTurns]

theorem ofTurns_bytes (ts : List StackTurn) : (ofTurns ts).bytes = (ts.map (·.bytes)).sum := by
  induction ts with
  | nil => rfl
  | cons t ts ih => rw [List.map_cons, List.sum_cons, ← ih]; rfl

end StackEffect

open StackEffect

variable {ts : List StackTurn} {h : Int}

theorem mem_heights_self (h : Int) (ts : List StackTurn) : h ∈ heights h ts := by
  cases ts with
  | nil => exact List.mem_singleton_self h
  | cons t ts => exact List.mem_cons_self

/-- The stack pointer does not go below 0 exactly when the turns find the values they need. -/
theorem heights_nonneg : (∀ x ∈ heights h ts, 0 ≤ x) ↔ ((ofTurns ts).need : Int) ≤ h := by
  induction ts generalizing h with
  | nil => simp [heights, ofTurns, StackEffect.none]
  | cons t ts ih =>
    have hneed : (ofTurns (t :: ts)).need = max (-t.move).toNat ((ofTurns ts).need - t.move).toNat := rfl
    rw [heights, List.forall_mem_cons, ih, hneed]
    omega

/-- The stack pointer does not go above the moves up. -/
theorem heights_le {x : Int} (hx : x ∈ heights h ts) : x ≤ h + (ofTurns ts).rise := by
  induction ts generalizing h with
  | nil =>
    obtain rfl := List.mem_singleton.mp hx
    exact Int.le_add_of_nonneg_right (Int.natCast_nonneg _)
  | cons t ts ih =>
    have hrise : (ofTurns (t :: ts)).rise = t.move.toNat + (ofTurns ts).rise := rfl
    rcases List.mem_cons.mp hx with rfl | hx
    · omega
    · have := ih hx
      omega

end Ab32Vg1.ProofKit
