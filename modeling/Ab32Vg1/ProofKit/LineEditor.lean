import Mathlib.Data.List.DropRight

/-! A line editor with a cursor and a history: a line that reaches `limit` characters is discarded,
and the `depth` newest lines can be recalled. -/

namespace Ab32Vg1.ProofKit

/-- The line on both sides of the cursor, the lines entered before, the oldest first, and the place
in them. -/
structure LineEditor (α : Type) (limit depth : Nat) where
  before : List α
  after : List α
  history : List (List α)
  current : Nat
  fits : (before ++ after).length < limit
  kept : history.length ≤ depth
  short : ∀ t ∈ history, t.length < limit
  current_le : current ≤ history.length

namespace LineEditor

variable {α : Type} {limit depth : Nat}

/-- An empty line and no history. -/
def fresh (h : 0 < limit) : LineEditor α limit depth where
  before := []
  after := []
  history := []
  current := 0
  fits := h
  kept := Nat.zero_le _
  short := by simp
  current_le := le_refl _

section Line

variable (e : LineEditor α limit depth)

def text : List α := e.before ++ e.after

/-- Another line, with the cursor behind it. -/
def replace (t : List α) (h : t.length < limit) : LineEditor α limit depth :=
  { e with before := t, after := [], fits := by rwa [List.append_nil] }

/-- A character at the cursor, or an empty line if there is no room for it. -/
def insert (c : α) : LineEditor α limit depth :=
  if h : e.text.length + 1 < limit then
    { e with
      before := e.before ++ [c]
      fits := by
        simp only [text, List.length_append, List.length_singleton] at h ⊢
        omega }
  else e.replace [] (Nat.zero_lt_of_lt e.fits)

/-- Without the character before the cursor. -/
def backspace : LineEditor α limit depth :=
  { e with
    before := e.before.dropLast
    fits := by
      have hfits := e.fits
      simp only [List.length_append, List.length_dropLast] at hfits ⊢
      omega }

/-- The cursor one character to the left. -/
def left : LineEditor α limit depth :=
  { e with
    before := e.before.dropLast
    after := e.before.drop (e.before.length - 1) ++ e.after
    fits := by
      have hfits := e.fits
      simp only [List.length_append, List.length_dropLast, List.length_drop] at hfits ⊢
      omega }

/-- The cursor one character to the right. -/
def right : LineEditor α limit depth :=
  { e with
    before := e.before ++ e.after.take 1
    after := e.after.drop 1
    fits := by
      rw [List.append_assoc, List.take_append_drop]
      exact e.fits }

/-- The line at a place of the history. -/
def recallAt (i : Nat) (h : i < e.history.length) : LineEditor α limit depth :=
  { e.replace e.history[i] (e.short _ (List.getElem_mem h)) with
    current := i
    kept := e.kept
    short := e.short
    current_le := h.le }

/-- The line before the place in the history. -/
def older : LineEditor α limit depth :=
  if h : 0 < e.current then e.recallAt (e.current - 1) (by have := e.current_le; omega) else e

/-- The line behind the place in the history, or the newest one. -/
def newer : LineEditor α limit depth :=
  if h : 0 < e.history.length then
    e.recallAt (min (e.current + 1) (e.history.length - 1)) (by omega)
  else e

/-- The line becomes the newest one of the history, unless it is empty or the newest one. -/
def push [DecidableEq α] : List (List α) :=
  if e.text = [] ∨ e.history.getLast? = some e.text then e.history
  else (e.history ++ [e.text]).drop (e.history.length + 1 - depth)

theorem push_kept [DecidableEq α] : e.push.length ≤ depth := by
  have hkept := e.kept
  rw [push]
  split
  · exact hkept
  · rw [List.length_drop, List.length_append, List.length_singleton]
    omega

theorem mem_push [DecidableEq α] {t : List α} (ht : t ∈ e.push) : t ∈ e.history ∨ t = e.text := by
  rw [push] at ht
  split at ht
  · exact .inl ht
  · exact (List.mem_append.mp (List.mem_of_mem_drop ht)).imp_right List.mem_singleton.mp

theorem push_short [DecidableEq α] : ∀ t ∈ e.push, t.length < limit := by
  intro t ht
  rcases e.mem_push ht with ht | rfl
  · exact e.short t ht
  · exact e.fits

/-- An empty line, and the place behind the history. -/
def enter [DecidableEq α] : LineEditor α limit depth where
  before := []
  after := []
  history := e.push
  current := e.push.length
  fits := Nat.zero_lt_of_lt e.fits
  kept := e.push_kept
  short := e.push_short
  current_le := le_refl _

end Line

section Lemmas

variable {e : LineEditor α limit depth}

theorem insert_of_lt {c : α} (h : e.text.length + 1 < limit) :
    (e.insert c).before = e.before ++ [c] ∧ (e.insert c).after = e.after := by
  simp [insert, h]

theorem insert_of_not_lt {c : α} (h : ¬e.text.length + 1 < limit) :
    (e.insert c).before = [] ∧ (e.insert c).after = [] := by
  simp [insert, h, replace]

theorem insert_history (c : α) :
    (e.insert c).history = e.history ∧ (e.insert c).current = e.current := by
  rw [insert]
  split <;> exact ⟨rfl, rfl⟩

theorem older_eq {i : Nat} (hi : i < e.history.length) (h : i + 1 = e.current) :
    e.older = e.recallAt i hi := by
  obtain rfl : i = e.current - 1 := by omega
  exact dif_pos (by omega)

theorem newer_eq {i : Nat} (hi : i < e.history.length)
    (h : i = min (e.current + 1) (e.history.length - 1)) : e.newer = e.recallAt i hi := by
  subst h
  exact dif_pos (by omega)

/-- At the beginning of the line there is nothing to delete. -/
theorem backspace_of_nil (h : e.before = []) : e.backspace = e := by
  cases e
  subst h
  rfl

/-- The cursor moves, the line stays. -/
theorem left_text (e : LineEditor α limit depth) : e.left.text = e.text := by
  simp only [left, text, List.dropLast_eq_take]
  rw [← List.append_assoc, List.take_append_drop]

theorem right_text (e : LineEditor α limit depth) : e.right.text = e.text := by
  simp only [right, text]
  rw [List.append_assoc, List.take_append_drop]

end Lemmas

end LineEditor

end Ab32Vg1.ProofKit
