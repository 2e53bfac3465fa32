import Mathlib.Data.Nat.Basic
import Mathlib.Tactic.Ring

/-! Definitions that the whole kernel shares. -/

namespace Ab32Vg1.Kernel

/-- `RT_ASSERT(ex)`: a failed assertion never returns. -/
def RT_ASSERT (ex : Prop) [Decidable ex] : Option Unit := if ex then some () else none

/-- The sum of two 32-bit words. -/
def add32 (a b : Nat) : Nat := (a + b) % 2 ^ 32

/-- The difference of two 32-bit words. -/
def sub32 (a b : Nat) : Nat := (a + (2 ^ 32 - b % 2 ^ 32)) % 2 ^ 32

theorem add32_of_lt {a b : Nat} (h : a + b < 2 ^ 32) : add32 a b = a + b := Nat.mod_eq_of_lt h

theorem sub32_of_le {a b : Nat} (ha : a < 2 ^ 32) (h : b ≤ a) : sub32 a b = a - b := by
  rw [sub32, Nat.mod_eq_of_lt (show b < 2 ^ 32 by omega)]
  rw [show a + (2 ^ 32 - b) = a - b + 2 ^ 32 by omega, Nat.add_mod_right,
    Nat.mod_eq_of_lt (by omega)]

/-- Clearing the low `k` bits of a 32-bit word rounds it down to a multiple of `2 ^ k`. -/
theorem land_mask {x k : Nat} (hx : x < 2 ^ 32) (hk : k ≤ 32) :
    x &&& (2 ^ 32 - 1) - (2 ^ k - 1) = x / 2 ^ k * 2 ^ k := by
  have hmask : (2 ^ 32 - 1) - (2 ^ k - 1) = (2 ^ (32 - k) - 1) <<< k := by
    have h1 : 1 ≤ 2 ^ k := Nat.one_le_two_pow
    have h2 : 2 ^ 32 = 2 ^ (32 - k) * 2 ^ k := by rw [← pow_add]; congr 1; omega
    rw [Nat.shiftLeft_eq, Nat.sub_mul, ← h2]
    omega
  rw [hmask, ← Nat.shiftRight_eq_div_pow, ← Nat.shiftLeft_eq]
  apply Nat.eq_of_testBit_eq
  intro i
  rw [Nat.testBit_and, Nat.testBit_shiftLeft, Nat.testBit_shiftLeft, Nat.testBit_shiftRight,
    Nat.testBit_two_pow_sub_one]
  by_cases hik : i < k
  · simp [show ¬k ≤ i by omega]
  · by_cases hi : i < 32
    · simp [show k ≤ i by omega, show k + (i - k) = i by omega, show i - k < 32 - k by omega]
    · have : x.testBit i = false :=
        Nat.testBit_lt_two_pow (lt_of_lt_of_le hx (Nat.pow_le_pow_right (by decide) (by omega)))
      simp [this, show k + (i - k) = i by omega]

def RT_ALIGN_SIZE : Nat := 8

/-- `RT_ALIGN(size, align)` on 32-bit words, for an `align` that is a power of two. -/
def RT_ALIGN (size align : Nat) : Nat := (size + align - 1) % 2 ^ 32 &&& (2 ^ 32 - 1) - (align - 1)

/-- `RT_ALIGN_DOWN(size, align)` on 32-bit words, for an `align` that is a power of two. -/
def RT_ALIGN_DOWN (size align : Nat) : Nat := size &&& (2 ^ 32 - 1) - (align - 1)

/-- `BIT(n)` of the register headers. -/
def BIT (i : Nat) : BitVec 32 := 1#32 <<< i

/-! Error codes. -/

def RT_EOK : Int := 0

def RT_ERROR : Int := 1

def RT_ETIMEOUT : Int := 2

def RT_EFULL : Int := 3

def RT_TICK_MAX : Nat := 0xffffffff

@[simp] theorem RT_ASSERT_true {ex : Prop} [Decidable ex] (h : ex) : RT_ASSERT ex = some () :=
  if_pos h

/-- What follows an assertion runs when it holds. -/
@[simp] theorem RT_ASSERT_bind_eq_some {α : Type} {ex : Prop} [Decidable ex] {f : Unit → Option α}
    {r : α} : (RT_ASSERT ex >>= f) = some r ↔ ex ∧ f () = some r := by
  by_cases h : ex <;> simp [RT_ASSERT, h]

end Ab32Vg1.Kernel
