import Mathlib.Tactic.SplitIfs

/-! Memory of aligned words, by address: stores, copies, and the fields of structures that do not
overlap. -/

namespace Ab32Vg1.ProofKit

/-- The words at the aligned addresses of a memory. -/
abbrev Words := Nat → Nat

namespace Words

/-- The memory after a store of `v` at address `a`. -/
def set (m : Words) (a v : Nat) : Words := fun i => if i = a then v else m i

/-- The memory after `n` bytes are copied from `src` to `dst`. -/
def copy (m : Words) (dst src n : Nat) : Words :=
  fun i => if dst ≤ i ∧ i < dst + n then m (src + (i - dst)) else m i

theorem set_self (m : Words) (a v : Nat) : m.set a v a = v := if_pos rfl

theorem set_ne {m : Words} {a v i : Nat} (h : i ≠ a) : m.set a v i = m i := if_neg h

theorem copy_outside {m : Words} {dst src n i : Nat} (h : i < dst ∨ dst + n ≤ i) :
    m.copy dst src n i = m i := if_neg (by omega)

end Words

/-- Structures of `n` bytes at `a` and `b` are the same one or do not overlap. -/
def Apart (n a b : Nat) : Prop := a = b ∨ a + n ≤ b ∨ b + n ≤ a

theorem Apart.symm {n a b : Nat} (h : Apart n a b) : Apart n b a := by
  unfold Apart at *
  omega

theorem Apart.refl (n a : Nat) : Apart n a a := Or.inl rfl

/-- A field of a structure after a store to a field. -/
theorem Words.set_field {m : Words} {n a b i j v : Nat} (h : Apart n a b) (hi : i < n) (hj : j < n) :
    m.set (a + i) v (b + j) = if i = j ∧ b = a then v else m (b + j) := by
  unfold Apart at h
  unfold Words.set
  split_ifs <;> first | rfl | omega

end Ab32Vg1.ProofKit
