import Mathlib.Init

/-! Bits that are sent, and matched by receivers that may consume them.  A log has its newest entry
first. -/

namespace Ab32Vg1.ProofKit

inductive Signal (w : Nat) (M : Type) where
  | sent (bits : BitVec w)
  | matched (m : M)

namespace Signal

variable {w : Nat} {M : Type}

/-- The bits that were sent and not consumed since. -/
def pending (consumed : M → BitVec w) : List (Signal w M) → BitVec w
  | [] => 0#w
  | .sent bits :: log => pending consumed log ||| bits
  | .matched m :: log => pending consumed log &&& ~~~consumed m

/-- Each match was made with the bits that were pending. -/
def Explained (consumed seen : M → BitVec w) : List (Signal w M) → Prop
  | [] => True
  | .sent _ :: log => Explained consumed seen log
  | .matched m :: log => seen m = pending consumed log ∧ Explained consumed seen log

variable {consumed seen : M → BitVec w} {log late mid early : List (Signal w M)} {m k : M} {i : Nat}

/-- A consumed bit that is pending was sent again. -/
theorem sent_of_pending (hp : (pending consumed (mid ++ .matched k :: early)).getLsbD i = true)
    (hk : (consumed k).getLsbD i = true) : ∃ bits, .sent bits ∈ mid ∧ bits.getLsbD i = true := by
  induction mid with
  | nil => simp [pending, hk] at hp
  | cons entry mid ih =>
    cases entry with
    | sent bits =>
      simp only [List.cons_append, pending, BitVec.getLsbD_or, Bool.or_eq_true] at hp
      rcases hp with hp | hp
      · obtain ⟨bits', hmem, hbit⟩ := ih hp
        exact ⟨bits', List.mem_cons_of_mem _ hmem, hbit⟩
      · exact ⟨bits, List.mem_cons_self, hp⟩
    | matched m =>
      simp only [List.cons_append, pending, BitVec.getLsbD_and, Bool.and_eq_true] at hp
      obtain ⟨bits', hmem, hbit⟩ := ih hp.1
      exact ⟨bits', List.mem_cons_of_mem _ hmem, hbit⟩

theorem Explained.seen_eq (h : Explained consumed seen (late ++ .matched m :: early)) :
    seen m = pending consumed early := by
  induction late with
  | nil => exact h.1
  | cons entry late ih =>
    cases entry with
    | sent bits => exact ih h
    | matched k => exact ih h.2

/-- A consumed bit is seen again only when it was sent again. -/
theorem Explained.sent_between
    (h : Explained consumed seen (late ++ .matched m :: (mid ++ .matched k :: early)))
    (hm : (seen m).getLsbD i = true) (hk : (consumed k).getLsbD i = true) :
    ∃ bits, .sent bits ∈ mid ∧ bits.getLsbD i = true :=
  sent_of_pending (h.seen_eq ▸ hm) hk

end Signal

end Ab32Vg1.ProofKit
