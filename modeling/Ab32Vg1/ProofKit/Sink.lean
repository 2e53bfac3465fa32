import Mathlib.Data.List.Basic

/-! Functions that put elements into a sink one after the other.  A function that does nothing else with
the sink does the same with every sink: it puts the elements that it appends to a list. -/

namespace Ab32Vg1.ProofKit

variable {α σ τ : Type}

/-- The loop that puts `c` so many times. -/
def fill (put : σ → α → σ) (c : α) : Nat → σ → σ
  | 0, o => o
  | n + 1, o => fill put c n (put o c)

/-- The sink that keeps everything. -/
def append (l : List α) (c : α) : List α := l ++ [c]

/-- A map from the states of one sink to those of another that goes along with every element. -/
def SinkHom (put : σ → α → σ) (put' : τ → α → τ) (h : σ → τ) : Prop :=
  ∀ o c, h (put o c) = put' (h o) c

variable {put : σ → α → σ} {put' : τ → α → τ} {h : σ → τ} {c : α}

theorem SinkHom.fill (hom : SinkHom put put' h) (n : Nat) (o : σ) :
    h (fill put c n o) = ProofKit.fill put' c n (h o) := by
  induction n generalizing o with
  | zero => rfl
  | succ n ih =>
    show h (ProofKit.fill put c n (put o c)) = _
    rw [ih, hom]
    rfl

theorem SinkHom.foldl (hom : SinkHom put put' h) (l : List α) (o : σ) :
    h (l.foldl put o) = l.foldl put' (h o) := by
  induction l generalizing o with
  | nil => rfl
  | cons c l ih => rw [List.foldl_cons, ih, hom, List.foldl_cons]

/-- What was kept can be put into any sink. -/
theorem appendHom (put : σ → α → σ) (o : σ) : SinkHom append put fun l => l.foldl put o := by
  intro l c
  show (l ++ [c]).foldl put o = _
  rw [List.foldl_append, List.foldl_cons, List.foldl_nil]

theorem fill_append (n : Nat) (l : List α) : fill append c n l = l ++ List.replicate n c := by
  induction n generalizing l with
  | zero => rw [List.replicate_zero, List.append_nil, fill]
  | succ n ih => rw [fill, ih, append, List.append_assoc, List.replicate_succ, List.singleton_append]

theorem foldl_append (l l' : List α) : l'.foldl append l = l ++ l' := by
  induction l' generalizing l with
  | nil => rw [List.foldl_nil, List.append_nil]
  | cons c l' ih => rw [List.foldl_cons, ih, append, List.append_assoc, List.singleton_append]

end Ab32Vg1.ProofKit
