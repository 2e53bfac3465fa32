import Mathlib.Algebra.Order.Ring.Nat
import Mathlib.Tactic.Ring

/-! Loops that work through a count in blocks of `k` units, and their rule: what the body does to one
block, the loop does to all whole blocks. -/

namespace Ab32Vg1.ProofKit

variable {State : Type} {k : Nat}

/-- `while (count >= k) { body; i += k; count -= k; }` -/
def blockLoop (k : Nat) (body : Nat → State → State) (s : State) (i count : Nat) :
    State × Nat × Nat :=
  if 0 < k ∧ k ≤ count then blockLoop k body (body i s) (i + k) (count - k) else (s, i, count)
termination_by count

/-- The loop leaves the state `done` of all whole blocks, and the rest of the count. -/
theorem blockLoop_eq {body : Nat → State → State} (done : Nat → State) {i count : Nat} (hk : 0 < k)
    (hbody : ∀ j, j * k + k ≤ count → body (i + j * k) (done (i + j * k)) = done (i + j * k + k)) :
    blockLoop k body (done i) i count = (done (i + count / k * k), i + count / k * k, count % k) := by
  induction count using Nat.strong_induction_on generalizing i with
  | _ count ih =>
    rw [blockLoop]
    by_cases hcount : k ≤ count
    · have hfirst := hbody 0 (by omega)
      rw [Nat.zero_mul, Nat.add_zero] at hfirst
      have hrest := ih (count - k) (by omega) (i := i + k) fun j hj => by
        have hnext := hbody (j + 1) (by rw [Nat.succ_mul]; omega)
        rw [Nat.succ_mul, Nat.add_comm (j * k) k, ← Nat.add_assoc] at hnext
        exact hnext
      have hdiv : count / k = (count - k) / k + 1 := Nat.div_eq_sub_div hk hcount
      have hoffset : i + k + (count - k) / k * k = i + count / k * k := by
        rw [hdiv]
        ring
      rw [if_pos ⟨hk, hcount⟩, hfirst, hrest, hoffset, ← Nat.mod_eq_sub_mod hcount]
    · rw [if_neg fun h => hcount h.2, Nat.div_eq_of_lt (by omega), Nat.mod_eq_of_lt (by omega)]
      simp

/-- A loop in units works through its whole count. -/
theorem blockLoop_one {body : Nat → State → State} (done : Nat → State) {i count : Nat}
    (hbody : ∀ j < count, body (i + j) (done (i + j)) = done (i + j + 1)) :
    (blockLoop 1 body (done i) i count).1 = done (i + count) := by
  have hloop : blockLoop 1 body (done i) i count = _ := blockLoop_eq done Nat.one_pos fun j hj => by
    rw [Nat.mul_one]
    exact hbody j (by omega)
  rw [hloop, Nat.div_one, Nat.mul_one]

end Ab32Vg1.ProofKit
