import Mathlib.Logic.Function.Basic
import Mathlib.Logic.Function.Iterate
import Mathlib.Tactic.SplitIfs

/-! A queue in a circular array: it starts at an offset and wraps at the end of the array.  It grows
at both ends and shrinks at the front. -/

namespace Ab32Vg1.ProofKit.Ring

variable {α : Type}

/-- The place `i` after the offset `out` in an array of `size` places. -/
def slot (size out i : Nat) : Nat := if out + i < size then out + i else out + i - size

/-- The next place. -/
def next (size o : Nat) : Nat := if size ≤ o + 1 then 0 else o + 1

/-- The place before. -/
def previous (size o : Nat) : Nat := if 0 < o then o - 1 else size - 1

section

variable {size out i j : Nat}

theorem slot_zero (h : out < size) : slot size out 0 = out := if_pos h

theorem slot_lt (ho : out < size) (hi : i < size) : slot size out i < size := by
  unfold slot
  split_ifs <;> omega

theorem slot_inj (hi : i < size) (hj : j < size) :
    slot size out i = slot size out j ↔ i = j := by
  unfold slot
  split_ifs <;> omega

theorem next_lt (ho : out < size) : next size out < size := by
  unfold next
  split_ifs <;> omega

theorem previous_lt (ho : out < size) : previous size out < size := by
  unfold previous
  split_ifs <;> omega

theorem slot_next (ho : out < size) (hi : i + 1 < size) :
    slot size (next size out) i = slot size out (i + 1) := by
  unfold slot next
  split_ifs <;> omega

theorem slot_previous (ho : out < size) (hi : i < size) :
    slot size (previous size out) (i + 1) = slot size out i := by
  unfold slot previous
  split_ifs <;> omega

theorem next_slot (ho : out < size) (hi : i < size) :
    next size (slot size out i) = slot size out (i + 1) := by
  unfold slot next
  split_ifs <;> omega

end

/-- The array holds the queue `q` from the offset `out` on; `inp` is the place after its end. -/
structure Holds (pool : Nat → α) (size inp out : Nat) (q : List α) : Prop where
  room : q.length ≤ size
  out_lt : 0 < size → out < size
  inp_eq : 0 < size → inp = slot size out q.length
  get : ∀ i (h : i < q.length), pool (slot size out i) = q[i]

section

variable {pool : Nat → α} {size inp out : Nat} {q : List α} {v : α}

variable (pool size) in
theorem Holds.empty : Holds pool size 0 0 [] :=
  ⟨Nat.zero_le _, fun h => h, fun h => (slot_zero h).symm, fun i h => by simp at h⟩

theorem Holds.pushBack (h : Holds pool size inp out q) (hroom : q.length < size) :
    Holds (Function.update pool inp v) size (next size inp) out (q ++ [v]) := by
  have hsize : 0 < size := by omega
  have hout := h.out_lt hsize
  have hinp := h.inp_eq hsize
  refine ⟨by simp; omega, h.out_lt, fun _ => ?_, fun i hi => ?_⟩
  · rw [hinp, next_slot hout hroom, List.length_append, List.length_singleton]
  · rw [List.length_append, List.length_singleton] at hi
    by_cases hlast : i = q.length
    · subst hlast
      rw [← hinp, Function.update_self]
      simp
    · have hi' : i < q.length := by omega
      have hne : slot size out i ≠ inp := by
        rw [hinp, Ne, slot_inj (by omega) hroom]
        exact hlast
      rw [Function.update_of_ne hne, h.get i hi', List.getElem_append_left hi']

theorem Holds.pushFront (h : Holds pool size inp out q) (hroom : q.length < size) :
    Holds (Function.update pool (previous size out) v) size inp (previous size out) (v :: q) := by
  have hsize : 0 < size := by omega
  have hout := h.out_lt hsize
  have hprev := previous_lt hout
  refine ⟨by simp; omega, fun _ => hprev, fun _ => ?_, fun i hi => ?_⟩
  · rw [h.inp_eq hsize, List.length_cons, slot_previous hout hroom]
  · cases i with
    | zero => rw [slot_zero hprev, Function.update_self, List.getElem_cons_zero]
    | succ i =>
      rw [List.length_cons] at hi
      have hne : slot size (previous size out) (i + 1) ≠ previous size out := by
        intro heq
        have := (slot_inj (i := i + 1) (j := 0) (by omega) hsize).mp
          (heq.trans (slot_zero hprev).symm)
        omega
      rw [Function.update_of_ne hne, slot_previous hout (by omega), h.get i (by omega),
        List.getElem_cons_succ]

theorem Holds.front (h : Holds pool size inp out (v :: q)) : pool out = v := by
  have hroom := h.room
  rw [List.length_cons] at hroom
  have hget := h.get 0 (by simp)
  rwa [slot_zero (h.out_lt (by omega)), List.getElem_cons_zero] at hget

theorem Holds.popFront (h : Holds pool size inp out (v :: q)) :
    Holds pool size inp (next size out) q := by
  have hroom := h.room
  rw [List.length_cons] at hroom
  have hsize : 0 < size := by omega
  have hout := h.out_lt hsize
  refine ⟨by omega, fun _ => next_lt hout, fun _ => ?_, fun i hi => ?_⟩
  · rw [h.inp_eq hsize, List.length_cons]
    unfold slot next
    split_ifs <;> omega
  · rw [slot_next hout (by omega), h.get (i + 1) (by simp; omega), List.getElem_cons_succ]

/-! ### Several values at once -/

/-- The pool after the values are written from the place `inp` on. -/
def writeAll (size : Nat) : (vs : List α) → (pool : Nat → α) → (inp : Nat) → Nat → α
  | [], pool, _ => pool
  | v :: vs, pool, inp => writeAll size vs (Function.update pool inp v) (next size inp)

theorem iterate_next {n : Nat} (ho : out < size) (hn : n ≤ size) :
    (next size)^[n] out = slot size out n := by
  induction n with
  | zero => exact (slot_zero ho).symm
  | succ n ih => rw [Function.iterate_succ_apply', ih (by omega), next_slot ho (by omega)]

theorem Holds.out_next (h : Holds pool size inp out q) (hsize : 0 < size) (hfull : q.length = size) :
    inp = out := by
  have hout := h.out_lt hsize
  rw [h.inp_eq hsize, hfull]
  unfold slot
  split_ifs <;> omega

/-- One more value; a full queue loses its first. -/
theorem Holds.push (h : Holds pool size inp out q) (hsize : 0 < size) :
    Holds (Function.update pool inp v) size (next size inp)
      (if q.length < size then out else next size out) ((q ++ [v]).drop (q.length + 1 - size)) := by
  have hroom := h.room
  by_cases hlt : q.length < size
  · rw [if_pos hlt, show q.length + 1 - size = 0 by omega]
    exact h.pushBack hlt
  · rw [if_neg hlt, show q.length + 1 - size = 1 by omega]
    cases q with
    | nil => exact absurd hsize hlt
    | cons w q => exact h.popFront.pushBack hroom

/-- More values; of those that do not fit the oldest are lost. -/
theorem Holds.pushAll (h : Holds pool size inp out q) (hsize : 0 < size) (vs : List α) :
    ∃ out', Holds (writeAll size vs pool inp) size ((next size)^[vs.length] inp) out'
        ((q ++ vs).drop (q.length + vs.length - size)) ∧
      (q.length + vs.length ≤ size → out' = out) := by
  induction vs generalizing pool inp out q with
  | nil =>
    refine ⟨out, ?_, fun _ => rfl⟩
    rw [List.append_nil, List.length_nil, Nat.add_zero, Nat.sub_eq_zero_of_le h.room]
    exact h
  | cons v vs ih =>
    obtain ⟨out', hout', hsame⟩ := ih (h.push (v := v) hsize)
    have hroom := h.room
    have hlen : ((q ++ [v]).drop (q.length + 1 - size)).length =
        q.length + 1 - (q.length + 1 - size) := by
      rw [List.length_drop, List.length_append, List.length_singleton]
    refine ⟨out', ?_, fun hle => ?_⟩
    · have hq : (q ++ v :: vs).drop (q.length + (v :: vs).length - size) =
          ((q ++ [v]).drop (q.length + 1 - size) ++ vs).drop
            (((q ++ [v]).drop (q.length + 1 - size)).length + vs.length - size) := by
        rw [hlen, ← List.drop_append_of_le_length (by simp), List.drop_drop, List.append_assoc,
          List.singleton_append, List.length_cons]
        congr 1
        omega
      rw [hq, List.length_cons, Function.iterate_succ_apply]
      exact hout'
    · rw [List.length_cons] at hle
      rw [hsame (by rw [hlen]; omega), if_pos (by omega)]

/-- The first values of the queue are taken out. -/
theorem Holds.popAll {n : Nat} (h : Holds pool size inp out q) (hn : n ≤ q.length) :
    Holds pool size inp ((next size)^[n] out) (q.drop n) := by
  induction n generalizing out q with
  | zero => exact h
  | succ n ih =>
    cases q with
    | nil => exact absurd hn (Nat.not_succ_le_zero n)
    | cons v q => exact ih h.popFront (Nat.le_of_succ_le_succ hn)

end

end Ab32Vg1.ProofKit.Ring
