import Ab32Vg1.Kernel.Ipc
import Mathlib.Data.List.Nodup
import Mathlib.Tactic.IntervalCases

/-! The bit masks of priorities, and `__rt_ffs` as the search for the highest priority. -/

namespace Ab32Vg1.Kernel

/-! ### Bit masks of priorities -/

theorem getLsbD_mask {p q : Nat} (hq : q < 32) : (1#32 <<< p).getLsbD q = decide (q = p) := by
  rw [BitVec.getLsbD_shiftLeft]
  by_cases h : q = p
  · simp [h, show p < 32 by omega]
  · by_cases hlt : q < p
    · simp [hlt, h]
    · have : q - p ≠ 0 := by omega
      simp [hq, hlt, h, this]

theorem getLsbD_or_mask {g : BitVec 32} {p q : Nat} (hq : q < 32) :
    (g ||| 1#32 <<< p).getLsbD q = (g.getLsbD q || decide (q = p)) := by
  rw [BitVec.getLsbD_or, getLsbD_mask hq]

theorem getLsbD_and_not_mask {g : BitVec 32} {p q : Nat} (hq : q < 32) :
    (g &&& ~~~(1#32 <<< p)).getLsbD q = (g.getLsbD q && !decide (q = p)) := by
  rw [BitVec.getLsbD_and, BitVec.getLsbD_not, getLsbD_mask hq]
  simp [hq]

/-- The table gives the lowest bit of every byte. -/
theorem lowest_bit_bitmap_spec : ∀ b : Fin 256, b ≠ 0 →
    b.val.testBit (lowest_bit_bitmap.getD b 0) = true ∧ lowest_bit_bitmap.getD b 0 < 8 ∧
    ∀ m : Fin 8, m.val < lowest_bit_bitmap.getD b 0 → b.val.testBit m = false := by
  decide +kernel

theorem getLsbD_byte {value : BitVec 32} {k i : Nat} (hk : k + 8 ≤ 32) :
    ((value &&& 0xff#32 <<< k) >>> k).getLsbD i = (decide (i < 8) && value.getLsbD (k + i)) := by
  have h255 : ∀ j, (0xff#32).getLsbD j = decide (j < 8) := by
    intro j
    rw [BitVec.getLsbD_ofNat, show 0xff = 2 ^ 8 - 1 from rfl, Nat.testBit_two_pow_sub_one]
    by_cases hj : j < 8
    · simp [hj, show j < 32 by omega]
    · simp [hj]
  rw [BitVec.getLsbD_ushiftRight, BitVec.getLsbD_and, BitVec.getLsbD_shiftLeft, h255,
    Nat.add_sub_cancel_left]
  by_cases hi : i < 8
  · simp [hi, show k + i < 32 by omega]
  · simp [hi]

/-- The byte at bit `k` of a word, as an index of the table. -/
theorem byte_spec {value : BitVec 32} {k : Nat} (hk : k + 8 ≤ 32)
    (hne : (value &&& 0xff#32 <<< k) ≠ 0) (hlow : ∀ m, m < k → value.getLsbD m = false) :
    let n := lowest_bit_bitmap.getD ((value &&& 0xff#32 <<< k) >>> k).toNat 0 + k
    n < 32 ∧ value.getLsbD n = true ∧ ∀ m, m < n → value.getLsbD m = false := by
  have hbit : ∀ i, _ = (decide (i < 8) && value.getLsbD (k + i)) := fun i => getLsbD_byte hk
  generalize hb : (value &&& 0xff#32 <<< k) >>> k = b at hbit
  have hlt : b.toNat < 256 := by
    apply Nat.lt_pow_two_of_testBit (n := 8)
    intro i hi
    have := hbit i
    rw [BitVec.getLsbD, decide_eq_false (by omega), Bool.false_and] at this
    exact this
  have hne' : (⟨b.toNat, hlt⟩ : Fin 256) ≠ 0 := by
    intro h0
    apply hne
    have hz : b = 0 := BitVec.eq_of_toNat_eq (Fin.mk.inj h0)
    apply BitVec.eq_of_getLsbD_eq
    intro i hi
    by_cases hik : i < k
    · simp [hlow i hik]
    · have := hbit (i - k)
      rw [hz, show k + (i - k) = i by omega] at this
      by_cases hi8 : i - k < 8
      · rw [decide_eq_true hi8, Bool.true_and] at this
        simp [← this]
      · rw [BitVec.getLsbD_and, BitVec.getLsbD_shiftLeft, BitVec.getLsbD_ofNat,
          show 0xff = 2 ^ 8 - 1 from rfl, Nat.testBit_two_pow_sub_one, decide_eq_false hi8]
        simp
  obtain ⟨hset, h8, hclear⟩ := lowest_bit_bitmap_spec ⟨b.toNat, hlt⟩ hne'
  simp only at hset h8 hclear ⊢
  generalize lowest_bit_bitmap.getD b.toNat 0 = n at *
  refine ⟨by omega, ?_, fun m hm => ?_⟩
  · have := hbit n
    rw [BitVec.getLsbD, hset, decide_eq_true h8, Bool.true_and, Nat.add_comm] at this
    exact this.symm
  · by_cases hmk : m < k
    · exact hlow m hmk
    · have hzero := hclear ⟨m - k, by omega⟩ (by simp only; omega)
      have := hbit (m - k)
      rw [BitVec.getLsbD, hzero, decide_eq_true (by omega), Bool.true_and,
        show k + (m - k) = m by omega] at this
      exact this.symm

theorem byte_eq_zero {value : BitVec 32} {k : Nat} (hk : k + 8 ≤ 32)
    (hz : (value &&& 0xff#32 <<< k) = 0) (hlow : ∀ m, m < k → value.getLsbD m = false) :
    ∀ m, m < k + 8 → value.getLsbD m = false := by
  intro m hm
  by_cases hmk : m < k
  · exact hlow m hmk
  · have : _ = (decide (m - k < 8) && value.getLsbD (k + (m - k))) := getLsbD_byte hk
    rw [hz, decide_eq_true (by omega), Bool.true_and, show k + (m - k) = m by omega] at this
    simpa using this.symm

/-- `__rt_ffs` finds the lowest bit that is set. -/
theorem rt_ffs_spec {value : BitVec 32} (h : value ≠ 0) :
    rt_ffs value - 1 < 32 ∧ value.getLsbD (rt_ffs value - 1) = true ∧
      ∀ m, m < rt_ffs value - 1 → value.getLsbD m = false := by
  have hlow : ∀ m, m < 0 → value.getLsbD m = false := by omega
  rw [rt_ffs, if_neg h, show 0xff00#32 = 0xff#32 <<< 8 from rfl,
    show 0xff0000#32 = 0xff#32 <<< 16 from rfl, show 0xff000000#32 = 0xff#32 <<< 24 from rfl]
  by_cases h0 : value &&& 0xff#32 ≠ 0
  · rw [if_pos h0]
    have hne : (value &&& 0xff#32 <<< 0) ≠ 0 := by simpa using h0
    simpa using byte_spec (by decide) hne hlow
  rw [if_neg h0]
  have hlow := byte_eq_zero (k := 0) (by decide) (by simpa using h0) hlow
  by_cases h1 : value &&& 0xff#32 <<< 8 ≠ 0
  · rw [if_pos h1]
    exact byte_spec (by decide) h1 hlow
  rw [if_neg h1]
  have hlow := byte_eq_zero (by decide) (not_not.mp h1) hlow
  by_cases h2 : value &&& 0xff#32 <<< 16 ≠ 0
  · rw [if_pos h2]
    exact byte_spec (by decide) h2 hlow
  rw [if_neg h2]
  have hlow := byte_eq_zero (by decide) (not_not.mp h2) hlow
  have h3 : value &&& 0xff#32 <<< 24 ≠ 0 := by
    intro h3
    have hall := byte_eq_zero (by decide) h3 hlow
    exact h (BitVec.eq_of_getLsbD_eq fun i hi => by simp [hall i hi])
  exact byte_spec (by decide) h3 hlow

end Ab32Vg1.Kernel
