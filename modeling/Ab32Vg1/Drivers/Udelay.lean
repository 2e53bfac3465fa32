import Ab32Vg1.Kernel.Def

/-! `ab32_udelay` of `drv_soft_i2c.c`: a loop that reads the counter of timer 0 and adds up what it
takes for the counts between two reads. -/

namespace Ab32Vg1.Drivers

open Kernel

def RT_TICK_PER_SECOND : Nat := 1000

/-- Timer 0, which counts up to `TMR0PR` in one tick and begins again at 0, and what each read of
`TMR0CNT` finds. -/
structure Timer0 where
  TMR0PR : Nat
  TMR0CNT : Nat → Nat
  size : TMR0PR < 2 ^ 32
  wraps : ∀ k, TMR0CNT k ≤ TMR0PR

/-- The loop from its `k`-th read on: the read after which it ends. -/
def udelayLoop (tmr : Timer0) (ticks : Nat) : Nat → Nat → Nat → Nat → Option Nat
  | 0, _, _, _ => none
  | fuel + 1, k, told, tcnt =>
    let tnow := tmr.TMR0CNT k
    if tnow ≠ told then
      let tcnt :=
        if tnow < told then add32 tcnt (sub32 told tnow)
        else add32 tcnt (add32 (sub32 tmr.TMR0PR tnow) told)
      if ticks ≤ tcnt then some k else udelayLoop tmr ticks fuel (k + 1) tnow tcnt
    else udelayLoop tmr ticks fuel (k + 1) told tcnt

def ab32_udelay (tmr : Timer0) (us fuel : Nat) : Option Nat :=
  let reload := tmr.TMR0PR
  let ticks := us * reload % 2 ^ 32 / (1000 / RT_TICK_PER_SECOND)
  udelayLoop tmr ticks fuel 1 (tmr.TMR0CNT 0) 0

namespace Timer0

variable (tmr : Timer0)

/-- The counts from the first read to the `k`-th, of which each comes within a period of the one
before. -/
@[grind] def elapsed : Nat → Nat
  | 0 => 0
  | k + 1 =>
    elapsed k + (tmr.TMR0CNT (k + 1) + (tmr.TMR0PR + 1 - tmr.TMR0CNT k)) % (tmr.TMR0PR + 1)

/-- How many reads found the counter moved. -/
@[grind] def moves : Nat → Nat
  | 0 => 0
  | k + 1 => moves k + if tmr.TMR0CNT (k + 1) ≠ tmr.TMR0CNT k then 1 else 0

/-- How many reads found that the counter had begun again. -/
@[grind] def periods : Nat → Nat
  | 0 => 0
  | k + 1 => periods k + if tmr.TMR0CNT (k + 1) < tmr.TMR0CNT k then 1 else 0

/-- The counts of `us` microseconds have gone by at the `k`-th read: a period of `TMR0PR + 1` counts
is a tick. -/
def Due (us k : Nat) : Prop :=
  us * (tmr.TMR0PR + 1) * RT_TICK_PER_SECOND ≤ tmr.elapsed k * 1000000

instance (us k : Nat) : Decidable (tmr.Due us k) := inferInstanceAs (Decidable (_ ≤ _))

/-- The delay ends at the first read at which it is over, if there is one. -/
def DelayContract (us : Nat) : Prop :=
  ∀ k, (∃ fuel, ab32_udelay tmr us fuel = some k) ↔
    0 < k ∧ tmr.Due us k ∧ ∀ j, 0 < j → j < k → ¬ tmr.Due us j

/-- The read finds the counter moved, and the reads that did make up for the counts: each stands for
`TMR0PR` counts less those that have gone by, and one more where the counter began again. -/
def Enough (us k : Nat) : Prop :=
  tmr.TMR0CNT k ≠ tmr.TMR0CNT (k - 1) ∧
    us * tmr.TMR0PR ≤ (tmr.moves k * tmr.TMR0PR + tmr.periods k - tmr.elapsed k) % 2 ^ 32

instance (us k : Nat) : Decidable (tmr.Enough us k) := inferInstanceAs (Decidable (_ ∧ _))

/-! ### What the loop adds up -/

variable {tmr} {us k r ticks fuel : Nat}

theorem elapsed_of_le (h : tmr.TMR0CNT k ≤ tmr.TMR0CNT (k + 1)) :
    tmr.elapsed (k + 1) = tmr.elapsed k + (tmr.TMR0CNT (k + 1) - tmr.TMR0CNT k) := by
  have hk := tmr.wraps (k + 1)
  have hsum : tmr.TMR0CNT (k + 1) + (tmr.TMR0PR + 1 - tmr.TMR0CNT k) =
      tmr.TMR0CNT (k + 1) - tmr.TMR0CNT k + (tmr.TMR0PR + 1) := by omega
  rw [elapsed, hsum, Nat.add_mod_right, Nat.mod_eq_of_lt (by omega)]

theorem elapsed_of_lt (h : tmr.TMR0CNT (k + 1) < tmr.TMR0CNT k) :
    tmr.elapsed (k + 1) = tmr.elapsed k + (tmr.TMR0CNT (k + 1) + (tmr.TMR0PR + 1 - tmr.TMR0CNT k)) := by
  have hk := tmr.wraps k
  rw [elapsed, Nat.mod_eq_of_lt (by omega)]

/-- What the reads up to the `k`-th add up to. -/
def counted (tmr : Timer0) (k : Nat) : Nat := tmr.moves k * tmr.TMR0PR + tmr.periods k - tmr.elapsed k

theorem elapsed_add_counted (k : Nat) :
    tmr.elapsed k + tmr.counted k = tmr.moves k * tmr.TMR0PR + tmr.periods k := by
  have hle : tmr.elapsed k ≤ tmr.moves k * tmr.TMR0PR + tmr.periods k := by
    induction k with
    | zero => simp [elapsed, moves, periods]
    | succ k ih =>
      have hmul : (tmr.moves k + 1) * tmr.TMR0PR = tmr.moves k * tmr.TMR0PR + tmr.TMR0PR :=
        Nat.succ_mul _ _
      have hk := tmr.wraps k
      have hk' := tmr.wraps (k + 1)
      rcases Nat.lt_trichotomy (tmr.TMR0CNT (k + 1)) (tmr.TMR0CNT k) with h | h | h
      · rw [elapsed_of_lt h, moves, periods, if_pos (Nat.ne_of_lt h), if_pos h]
        omega
      · rw [elapsed_of_le (Nat.le_of_eq h.symm), moves, periods, if_neg (not_not.mpr h),
          if_neg (by omega), h, Nat.sub_self]
        exact ih
      · rw [elapsed_of_le (Nat.le_of_lt h), moves, periods, if_pos (Nat.ne_of_gt h),
          if_neg (Nat.not_lt_of_gt h)]
        omega
  exact Nat.add_sub_of_le hle

/-- A read that finds the counter where it was adds nothing. -/
theorem counted_stays (h : tmr.TMR0CNT (k + 1) = tmr.TMR0CNT k) : tmr.counted (k + 1) = tmr.counted k := by
  rw [counted, counted, elapsed_of_le (Nat.le_of_eq h.symm), moves, periods, if_neg (not_not.mpr h),
    if_neg (by omega), h, Nat.sub_self]
  rfl

/-- A counter that has begun again stands for what is missing of the counts. -/
theorem counted_wraps (h : tmr.TMR0CNT (k + 1) < tmr.TMR0CNT k) :
    tmr.counted (k + 1) = tmr.counted k + (tmr.TMR0CNT k - tmr.TMR0CNT (k + 1)) := by
  have hsum := tmr.elapsed_add_counted k
  have hsum' := tmr.elapsed_add_counted (k + 1)
  have hmul : (tmr.moves k + 1) * tmr.TMR0PR = tmr.moves k * tmr.TMR0PR + tmr.TMR0PR :=
    Nat.succ_mul _ _
  have hk := tmr.wraps k
  rw [elapsed_of_lt h, moves, periods, if_pos (Nat.ne_of_lt h), if_pos h] at hsum'
  omega

theorem counted_moves (h : tmr.TMR0CNT k < tmr.TMR0CNT (k + 1)) :
    tmr.counted (k + 1) = tmr.counted k + (tmr.TMR0PR - tmr.TMR0CNT (k + 1) + tmr.TMR0CNT k) := by
  have hsum := tmr.elapsed_add_counted k
  have hsum' := tmr.elapsed_add_counted (k + 1)
  have hmul : (tmr.moves k + 1) * tmr.TMR0PR = tmr.moves k * tmr.TMR0PR + tmr.TMR0PR :=
    Nat.succ_mul _ _
  have hk := tmr.wraps (k + 1)
  rw [elapsed_of_le (Nat.le_of_lt h), moves, periods, if_pos (Nat.ne_of_gt h),
    if_neg (Nat.not_lt_of_gt h)] at hsum'
  omega

/-- One turn of the loop, at a sum that is the sum of the reads. -/
theorem udelayLoop_succ :
    udelayLoop tmr (us * tmr.TMR0PR) (fuel + 1) (k + 1) (tmr.TMR0CNT k) (tmr.counted k % 2 ^ 32) =
      if tmr.Enough us (k + 1) then some (k + 1)
      else udelayLoop tmr (us * tmr.TMR0PR) fuel (k + 2) (tmr.TMR0CNT (k + 1))
        (tmr.counted (k + 1) % 2 ^ 32) := by
  have hk := tmr.wraps k
  have hk' := tmr.wraps (k + 1)
  have hsize := tmr.size
  rw [udelayLoop]
  dsimp only
  by_cases hmove : tmr.TMR0CNT (k + 1) = tmr.TMR0CNT k
  · rw [if_neg (not_not.mpr hmove), if_neg (fun h => h.1 hmove), counted_stays hmove, hmove]
  · have hadd : (if tmr.TMR0CNT (k + 1) < tmr.TMR0CNT k then
          add32 (tmr.counted k % 2 ^ 32) (sub32 (tmr.TMR0CNT k) (tmr.TMR0CNT (k + 1)))
        else add32 (tmr.counted k % 2 ^ 32)
          (add32 (sub32 tmr.TMR0PR (tmr.TMR0CNT (k + 1))) (tmr.TMR0CNT k))) =
        tmr.counted (k + 1) % 2 ^ 32 := by
      split
      · next h =>
        rw [counted_wraps h, add32, sub32]
        omega
      · next h =>
        rw [counted_moves (Nat.lt_of_le_of_ne (Nat.le_of_not_lt h) (Ne.symm hmove)), add32, add32, sub32]
        omega
    have henough : tmr.Enough us (k + 1) ↔ us * tmr.TMR0PR ≤ tmr.counted (k + 1) % 2 ^ 32 :=
      ⟨fun h => h.2, fun h => ⟨hmove, h⟩⟩
    rw [if_pos hmove, hadd]
    simp only [henough]

/-- The loop ends at the first read at which there is enough. -/
theorem udelayLoop_ends :
    (∃ fuel, udelayLoop tmr (us * tmr.TMR0PR) fuel (k + 1) (tmr.TMR0CNT k) (tmr.counted k % 2 ^ 32) =
        some r) ↔
      k < r ∧ tmr.Enough us r ∧ ∀ j, k < j → j < r → ¬ tmr.Enough us j := by
  constructor
  · rintro ⟨fuel, h⟩
    induction fuel generalizing k with
    | zero => cases h
    | succ fuel ih =>
      rw [udelayLoop_succ] at h
      split at h
      · next henough =>
        cases h
        exact ⟨Nat.lt_succ_self k, henough, fun j hj hj' => absurd hj' (by omega)⟩
      · next hmore =>
        obtain ⟨hlt, henough, hfirst⟩ := ih h
        refine ⟨Nat.lt_of_succ_lt hlt, henough, fun j hj hj' => ?_⟩
        rcases Nat.eq_or_lt_of_le (Nat.succ_le_of_lt hj) with rfl | hj
        · exact hmore
        · exact hfirst j hj hj'
  · rintro ⟨hlt, henough, hfirst⟩
    obtain ⟨n, rfl⟩ := Nat.exists_eq_add_of_lt hlt
    refine ⟨n + 1, ?_⟩
    induction n generalizing k with
    | zero => rw [udelayLoop_succ, if_pos henough]
    | succ n ih =>
      rw [udelayLoop_succ, if_neg (hfirst (k + 1) (Nat.lt_succ_self k) (by omega))]
      have hr : k + 1 + n + 1 = k + (n + 1) + 1 := by omega
      rw [← hr] at henough hfirst ⊢
      exact ih (by omega) henough fun j hj => hfirst j (Nat.lt_of_succ_lt hj)

/-- Two conditions hold at the same first read if they agree up to it. -/
theorem first_iff_first {P Q : Nat → Prop} :
    (∀ k, (0 < k ∧ P k ∧ ∀ j, 0 < j → j < k → ¬ P j) ↔
        (0 < k ∧ Q k ∧ ∀ j, 0 < j → j < k → ¬ Q j)) ↔
      ∀ k, 0 < k → (∀ j, 0 < j → j < k → ¬ Q j) → (P k ↔ Q k) := by
  constructor
  · intro h k hk hfirst
    have hnone : ∀ j, 0 < j → j < k → ¬ P j := by
      intro j
      induction j using Nat.strong_induction_on with
      | h j ih =>
        intro hj hjk hP
        have hQ := ((h j).mp ⟨hj, hP, fun i hi hij => ih i hij hi (Nat.lt_trans hij hjk)⟩).2.1
        exact hfirst j hj hjk hQ
    exact ⟨fun hP => ((h k).mp ⟨hk, hP, hnone⟩).2.1, fun hQ => ((h k).mpr ⟨hk, hQ, hfirst⟩).2.1⟩
  · intro h k
    constructor
    · rintro ⟨hk, hP, hfirst⟩
      have hnone : ∀ j, 0 < j → j < k → ¬ Q j := by
        intro j
        induction j using Nat.strong_induction_on with
        | h j ih =>
          intro hj hjk hQ
          exact hfirst j hj hjk ((h j hj fun i hi hij => ih i hij hi (Nat.lt_trans hij hjk)).mpr hQ)
      exact ⟨hk, (h k hk hnone).mp hP, hnone⟩
    · rintro ⟨hk, hQ, hfirst⟩
      refine ⟨hk, (h k hk hfirst).mpr hQ, fun j hj hjk hP => ?_⟩
      exact hfirst j hj hjk
        ((h j hj fun i hi hij => hfirst i hi (Nat.lt_trans hij hjk)).mp hP)

/-- The delay ends where it should if, up to the first read at which it is over, the reads make up
for its counts exactly where it is over. -/
theorem ab32_udelay_ends (hus : us * (tmr.TMR0PR + 1) < 2 ^ 32) :
    tmr.DelayContract us ↔
      ∀ k, 0 < k → (∀ j, 0 < j → j < k → ¬ tmr.Due us j) → (tmr.Enough us k ↔ tmr.Due us k) := by
  have hticks : us * tmr.TMR0PR % 2 ^ 32 / (1000 / RT_TICK_PER_SECOND) = us * tmr.TMR0PR := by
    rw [Nat.mod_eq_of_lt (Nat.lt_of_le_of_lt (Nat.mul_le_mul_left us (Nat.le_succ _)) hus)]
    exact Nat.div_one _
  have hstart : tmr.counted 0 % 2 ^ 32 = 0 := by simp [counted, moves, periods]
  have hends (r : Nat) : (∃ fuel, ab32_udelay tmr us fuel = some r) ↔
      0 < r ∧ tmr.Enough us r ∧ ∀ j, 0 < j → j < r → ¬ tmr.Enough us j := by
    rw [← udelayLoop_ends, hstart]
    simp only [ab32_udelay, hticks]
  rw [DelayContract, ← first_iff_first]
  simp only [hends]

/-- The timer of the board, read at every count. -/
def everyCount : Timer0 where
  TMR0PR := 47999
  TMR0CNT k := k % 48000
  size := by decide
  wraps k := by omega

theorem ab32_udelay_ends_everyCount :
    everyCount.DelayContract 10 ↔
      ∀ k, 0 < k → (∀ j, 0 < j → j < k → ¬ everyCount.Due 10 j) →
        (everyCount.Enough 10 k ↔ everyCount.Due 10 k) :=
  ab32_udelay_ends (by decide)

/-- Ten microseconds are 480 counts, and the delay is over after 11. -/
theorem ab32_udelay_short : ¬ everyCount.DelayContract 10 := by
  intro h
  have hdue : everyCount.Due 10 11 := ((h 11).mp ⟨11, by decide +kernel⟩).2.1
  revert hdue
  decide +kernel

end Timer0

end Ab32Vg1.Drivers
