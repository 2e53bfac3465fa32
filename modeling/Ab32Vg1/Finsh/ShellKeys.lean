import Ab32Vg1.Finsh.ShellComplete
import Ab32Vg1.ProofKit.LineEditor

/-! The shell as a line editor: what each key does to the buffer is what it does to the line, as
long as nothing of a discarded line is read. -/

namespace Ab32Vg1.Finsh.Shell

open Msh ProofKit

abbrev Editor := LineEditor UInt8 FINSH_CMD_SIZE FINSH_HISTORY_LINES

def Editor.empty : Editor := LineEditor.fresh (by decide)

/-! ### Keys -/

inductive Key
  | char (c : UInt8)
  | backspace (delete : Bool)
  | left
  | right
  | up
  | down
  | tab
  | enter (newline : Bool)
  deriving DecidableEq, Repr

namespace Key

/-- The bytes of a key. -/
def bytes : Key → List UInt8
  | char c => [c]
  | backspace delete => [if delete then 0x7f else 0x08]
  | up => [0x1b, 0x5b, 0x41]
  | down => [0x1b, 0x5b, 0x42]
  | right => [0x1b, 0x5b, 0x43]
  | left => [0x1b, 0x5b, 0x44]
  | tab => [chr '\t']
  | enter newline => [if newline then chr '\n' else chr '\r']

/-- A character is printable. -/
def Typed : Key → Prop
  | char c => 0x20 ≤ c ∧ c ≤ 0x7e
  | _ => True

end Key

/-- What a key does to a line. -/
def Editor.press (w : World) (e : Editor) : Key → Editor
  | .char c => e.insert c
  | .backspace _ => e.backspace
  | .left => e.left
  | .right => e.right
  | .up => e.older
  | .down => e.newer
  | .tab =>
    if h : (completion w e.text).length < FINSH_CMD_SIZE then e.replace (completion w e.text) h else e
  | .enter _ => e.enter

/-- The line that a key ends. -/
def Editor.entered (w : World) (e : Editor) : Key → List (World × List UInt8)
  | .enter _ => [(w, e.text)]
  | _ => []

/-- The editor after some keys, and the lines that were entered. -/
def Editor.type (e : Editor) : List (World × Key) → Editor × List (World × List UInt8)
  | [] => (e, [])
  | (w, key) :: keys =>
    (((e.press w key).type keys).1, e.entered w key ++ ((e.press w key).type keys).2)

/-- What a line comes to when the buffer holds nothing else. -/
def execLine (w : World) (s : List UInt8) : Option Exec :=
  if w.msh_is_used then msh_exec w (s ++ [0]) s.length
  else some (if s = [] then .nothing else .run_line (s ++ [chr ';']))

/-! ### The line in the buffer -/

/-- A command in its row of the history. -/
def row (s : List UInt8) : List UInt8 := s ++ List.replicate (FINSH_CMD_SIZE - s.length) 0

/-- The buffer begins with the line of the editor; what is behind it is left from earlier lines. -/
structure Shows (e : Editor) (sh : FinshShell) (stale : List UInt8) : Prop where
  line : sh.line = e.text ++ (stale ++ [0])
  size : e.text.length + stale.length = FINSH_CMD_SIZE
  position : sh.line_position = e.text.length
  curpos : sh.line_curpos = e.before.length
  plain : 0 ∉ e.text
  count : sh.history_count = e.history.length
  current : sh.current_history = e.current
  rows : ∃ spare, sh.cmd_history = e.history.map row ++ spare ∧
    e.history.length + spare.length = FINSH_HISTORY_LINES
  history_plain : ∀ s ∈ e.history, 0 ∉ s

/-- Nothing of an earlier line is behind the line. -/
def Cleared (sh : FinshShell) : Prop := ∀ c ∈ sh.line.drop sh.line_position, c = 0

instance (sh : FinshShell) : Decidable (Cleared sh) :=
  inferInstanceAs (Decidable (∀ c ∈ sh.line.drop sh.line_position, c = 0))

section Moves

variable {before after rest : List UInt8} {x c : UInt8}

/-- The end of the line one place to the right. -/
theorem memmove_right (before rest : List UInt8) (x : UInt8) (h : after ≠ []) :
    ∃ y, memmove (before ++ (after ++ x :: rest)) (before.length + 1) before.length after.length =
      some (before ++ y :: (after ++ rest)) := by
  obtain ⟨y, after, rfl⟩ := List.exists_cons_of_ne_nil h
  refine ⟨y, ?_⟩
  have hend : (y :: after ++ x :: rest).drop (1 + (y :: after).length) = rest := by
    rw [Nat.add_comm, List.drop_length_add_append]
    rfl
  have hin : before.length + 1 + (y :: after).length ≤
      (before ++ (y :: after ++ x :: rest)).length := by
    simp only [List.length_append, List.length_cons]
    omega
  rw [memmove, if_pos ⟨hin, by omega⟩, Nat.add_assoc, List.drop_length_add_append, hend,
    List.take_length_add_append, List.drop_left, List.take_left]
  simp

/-- The end of the line one place to the left. -/
theorem memmove_left (before rest : List UInt8) (x : UInt8) (after : List UInt8) :
    ∃ y, memmove (before ++ x :: (after ++ rest)) before.length (before.length + 1) after.length =
      some (before ++ (after ++ y :: rest)) := by
  have hlast : ∃ y, (x :: (after ++ rest)).drop after.length = y :: rest := by
    induction after generalizing x with
    | nil => exact ⟨x, rfl⟩
    | cons z after ih => exact ih z
  obtain ⟨y, hy⟩ := hlast
  refine ⟨y, ?_⟩
  have hin : before.length + 1 + after.length ≤ (before ++ x :: (after ++ rest)).length := by
    simp only [List.length_append, List.length_cons]
    omega
  rw [memmove, if_pos ⟨by omega, hin⟩, List.take_left, List.drop_length_add_append,
    List.drop_length_add_append, hy, List.drop_succ_cons, List.drop_zero, List.take_left]

theorem write_at (before rest : List UInt8) (x c : UInt8) :
    write (before ++ x :: rest) before.length c = some (before ++ c :: rest) := by
  rw [write, if_pos (by simp), write_append]

theorem insertByte_eq (before after rest : List UInt8) (x c : UInt8) :
    insertByte (before ++ (after ++ x :: rest)) before.length (before.length + after.length) c =
      some (before ++ c :: (after ++ rest)) := by
  rw [insertByte]
  by_cases hafter : after = []
  · subst hafter
    rw [if_neg (by simp)]
    exact write_at before rest x c
  · have hpos := List.length_pos_iff.mpr hafter
    obtain ⟨y, hmove⟩ := memmove_right before rest x hafter
    rw [if_pos (by omega), Nat.add_sub_cancel_left, hmove, Option.bind_eq_bind, Option.bind_some,
      write_at]

theorem deleteByte_eq (before after rest : List UInt8) (x : UInt8) :
    deleteByte (before ++ x :: (after ++ rest)) before.length (before.length + after.length) =
      some (before ++ (after ++ 0 :: rest)) := by
  rw [deleteByte, Option.bind_eq_bind]
  by_cases hafter : after = []
  · subst hafter
    rw [if_neg (by simp), Option.bind_some]
    exact write_at before rest x 0
  · have hpos := List.length_pos_iff.mpr hafter
    obtain ⟨y, hmove⟩ := memmove_left before rest x after
    have hwrite := write_at (before ++ after) rest y 0
    rw [List.length_append, List.append_assoc, List.append_assoc] at hwrite
    rw [if_pos (by omega), Nat.add_sub_cancel_left, hmove, Option.bind_some]
    exact hwrite

end Moves

/-! ### One key -/

section Keys

variable {e : Editor} {sh : FinshShell} {stale : List UInt8} {c : UInt8}

theorem room (e : Editor) : e.before.length + e.after.length < 80 := by
  have hfits := e.fits
  rwa [List.length_append] at hfits

/-- The line with the next byte behind it. -/
theorem Shows.split (h : Shows e sh stale) : ∃ x rest, stale = x :: rest ∧
    sh.line = e.before ++ (e.after ++ x :: (rest ++ [0])) := by
  have hsize := h.size
  rw [LineEditor.text, List.length_append] at hsize
  cases stale with
  | nil =>
    rw [List.length_nil, Nat.add_zero] at hsize
    exact absurd hsize (room e).ne
  | cons x rest =>
    refine ⟨x, rest, rfl, ?_⟩
    rw [h.line, LineEditor.text, List.append_assoc, List.cons_append]

theorem Shows.position_eq (h : Shows e sh stale) :
    sh.line_position = e.before.length + e.after.length := by
  rw [h.position, LineEditor.text, List.length_append]

/-- The same history with another line. -/
theorem Shows.edit {e' : Editor} {stale' : List UInt8} (h : Shows e sh stale)
    (hhistory : e'.history = e.history ∧ e'.current = e.current) (hplain : 0 ∉ e'.text)
    (hsize : e'.text.length + stale'.length = FINSH_CMD_SIZE) :
    Shows e' { sh with
      line := e'.text ++ (stale' ++ [0])
      line_position := e'.text.length
      line_curpos := e'.before.length } stale' where
  line := rfl
  size := hsize
  position := rfl
  curpos := rfl
  plain := hplain
  count := by rw [hhistory.1, ← h.count]
  current := by rw [hhistory.2, ← h.current]
  rows := by
    rw [hhistory.1]
    exact h.rows
  history_plain := by
    rw [hhistory.1]
    exact h.history_plain

/-- A character at the cursor; a line that is too long is discarded, but stays in the buffer. -/
theorem Shows.normalKey (h : Shows e sh stale) (hc : c ≠ 0) :
    ∃ sh' stale', Shell.normalKey sh c = some sh' ∧ Shows (e.insert c) sh' stale' ∧
      sh'.stat = sh.stat := by
  have hroom := room e
  have hsize := h.size
  obtain ⟨x, rest, rfl, hline⟩ := h.split
  rw [List.length_cons] at hsize
  have htext : e.text.length = e.before.length + e.after.length := List.length_append
  have hincr (n : Nat) (hn : n < 80) : incr n = n + 1 := by
    rw [incr]
    omega
  have hbig : ¬FINSH_CMD_SIZE ≤ e.before.length + e.after.length := Nat.not_le.mpr hroom
  simp only [Shell.normalKey, h.position_eq, h.curpos, hline, hbig, if_false, Option.bind_eq_bind,
    insertByte_eq, Option.bind_some, hincr _ hroom, hincr e.before.length (by omega)]
  by_cases hlt : e.text.length + 1 < FINSH_CMD_SIZE
  · obtain ⟨hbefore, hafter⟩ := LineEditor.insert_of_lt (c := c) hlt
    have htext' : (e.insert c).text = e.before ++ c :: e.after := by
      rw [LineEditor.text, hbefore, hafter, List.append_assoc, List.singleton_append]
    have hplain : 0 ∉ (e.insert c).text := by
      have hplain := h.plain
      rw [LineEditor.text, List.mem_append] at hplain
      rw [htext', List.mem_append, List.mem_cons]
      rintro (hzero | hzero | hzero)
      · exact hplain (.inl hzero)
      · exact hc hzero.symm
      · exact hplain (.inr hzero)
    have hlen : (e.insert c).text.length = e.text.length + 1 := by
      rw [htext', htext, List.length_append, List.length_cons]
      omega
    refine ⟨_, rest, ?_, h.edit (LineEditor.insert_history c) hplain (by omega), rfl⟩
    rw [if_neg (by omega), hlen, htext, htext', hbefore, List.length_append, List.length_singleton,
      List.append_assoc, List.cons_append]
  · obtain ⟨hbefore, hafter⟩ := LineEditor.insert_of_not_lt (c := c) hlt
    have htext' : (e.insert c).text = [] := by rw [LineEditor.text, hbefore, hafter, List.append_nil]
    have hfull : rest = [] := by
      rw [← List.length_eq_zero_iff]
      omega
    refine ⟨_, e.before ++ c :: e.after, ?_,
      h.edit (LineEditor.insert_history c) (by simp [htext']) ?_, rfl⟩
    · rw [if_pos (by omega), htext', hbefore, hfull]
      simp
    · rw [htext', List.length_append, List.length_cons]
      have hsize' : FINSH_CMD_SIZE = 80 := rfl
      simp only [List.length_nil]
      omega

/-- The character before the cursor is deleted, and a `NUL` comes behind the line. -/
theorem Shows.backspaceKey (h : Shows e sh stale) :
    ∃ sh' stale', Shell.backspaceKey sh = some sh' ∧ Shows e.backspace sh' stale' ∧
      sh'.stat = sh.stat := by
  have hroom := room e
  have hsize := h.size
  rw [Shell.backspaceKey, h.curpos]
  rcases List.eq_nil_or_concat' e.before with hbefore | ⟨before, x, hbefore⟩
  · rw [if_pos (by rw [hbefore, List.length_nil]), LineEditor.backspace_of_nil hbefore]
    exact ⟨sh, stale, rfl, h, rfl⟩
  · have hlen : e.before.length = before.length + 1 := by
      rw [hbefore, List.length_append, List.length_singleton]
    have htext : e.text = before ++ x :: e.after := by
      rw [LineEditor.text, hbefore, List.append_assoc, List.singleton_append]
    have htext' : e.backspace.text = before ++ e.after := by
      rw [LineEditor.text, LineEditor.backspace]
      simp only [hbefore, List.dropLast_concat]
    have hbefore' : e.backspace.before = before := by
      rw [LineEditor.backspace]
      simp only [hbefore, List.dropLast_concat]
    have hplain : 0 ∉ e.backspace.text := by
      have hplain := h.plain
      rw [htext, List.mem_append, List.mem_cons] at hplain
      rw [htext', List.mem_append]
      rintro (hzero | hzero)
      · exact hplain (.inl hzero)
      · exact hplain (.inr (.inr hzero))
    have hdecr : decr sh.line_position = before.length + e.after.length := by
      rw [decr, h.position_eq]
      omega
    have hline : sh.line = before ++ x :: (e.after ++ (stale ++ [0])) := by
      rw [h.line, htext, List.append_assoc, List.cons_append]
    refine ⟨_, 0 :: stale, ?_, h.edit ⟨rfl, rfl⟩ hplain ?_, rfl⟩
    · rw [if_neg (by omega), hdecr, hline, hlen, Nat.add_sub_cancel]
      simp only [deleteByte_eq, Option.bind_eq_bind, Option.bind_some]
      rw [htext', hbefore', List.length_append, List.append_assoc, List.cons_append]
    · rw [htext] at hsize
      rw [htext', List.length_cons]
      simp only [List.length_append, List.length_cons] at hsize ⊢
      omega

/-- The cursor moves. -/
theorem Shows.move {e' : Editor} (h : Shows e sh stale) (htext : e'.text = e.text)
    (hhistory : e'.history = e.history ∧ e'.current = e.current) :
    Shows e' { sh with line_curpos := e'.before.length } stale := by
  have hedit := h.edit hhistory (htext ▸ h.plain) (htext ▸ h.size)
  rwa [htext, ← h.line, ← h.position] at hedit

theorem Shows.leftKey (h : Shows e sh stale) :
    Shows e.left (Shell.leftKey sh) stale ∧ (Shell.leftKey sh).stat = sh.stat := by
  have hmove := h.move (LineEditor.left_text e) ⟨rfl, rfl⟩
  have hlen : e.left.before.length = sh.line_curpos - 1 := by
    rw [h.curpos, LineEditor.left, List.length_dropLast]
  rw [hlen] at hmove
  rw [Shell.leftKey]
  split
  · exact ⟨hmove, rfl⟩
  next hzero =>
    have hsame : sh.line_curpos - 1 = sh.line_curpos := by omega
    rw [hsame] at hmove
    exact ⟨hmove, rfl⟩

theorem Shows.rightKey (h : Shows e sh stale) :
    Shows e.right (Shell.rightKey sh) stale ∧ (Shell.rightKey sh).stat = sh.stat := by
  have hroom := room e
  have hmove := h.move (LineEditor.right_text e) ⟨rfl, rfl⟩
  have hlen : e.right.before.length = e.before.length + min 1 e.after.length := by
    rw [LineEditor.right, List.length_append, List.length_take]
  have hcurpos := h.curpos
  have hposition := h.position_eq
  rw [hlen] at hmove
  rw [Shell.rightKey]
  split
  next hlt =>
    have hincr : incr sh.line_curpos = e.before.length + min 1 e.after.length := by
      rw [incr]
      omega
    rw [hincr]
    exact ⟨hmove, rfl⟩
  next hlast =>
    have hsame : e.before.length + min 1 e.after.length = sh.line_curpos := by omega
    rw [hsame] at hmove
    exact ⟨hmove, rfl⟩

end Keys

/-! ### A whole line -/

section Recall

variable {e : Editor} {sh : FinshShell} {stale s : List UInt8} {i : Nat}

theorem buffer_eq_row (h : s.length ≤ FINSH_CMD_SIZE) : buffer s = row s ++ [0] := by
  rw [buffer_eq h, row, List.append_assoc, ← List.replicate_succ, ← List.replicate_succ']

theorem length_row (h : s.length ≤ FINSH_CMD_SIZE) : (row s).length = FINSH_CMD_SIZE := by
  rw [row, List.length_append, List.length_replicate]
  omega

theorem Shows.length (h : Shows e sh stale) : sh.line.length = FINSH_CMD_SIZE + 1 := by
  rw [h.line, ← List.append_assoc, List.length_append, List.length_append, h.size,
    List.length_singleton]

theorem Shows.readRow (h : Shows e sh stale) (hi : i < e.history.length) :
    sh.cmd_history[i]? = some (row e.history[i]) := by
  obtain ⟨spare, hrows, -⟩ := h.rows
  have hlt : i < (e.history.map row).length := by rwa [List.length_map]
  rw [hrows, List.getElem?_append_left hlt, List.getElem?_map, List.getElem?_eq_getElem hi,
    Option.map_some]

/-- A row of the history over the line. -/
theorem Shows.copyRow (h : Shows e sh stale) (hs : s.length ≤ FINSH_CMD_SIZE) :
    memcpy sh.line 0 (row s) FINSH_CMD_SIZE = some (buffer s) := by
  have hlen := h.length
  have hrow := length_row hs
  have hdrop : sh.line.drop FINSH_CMD_SIZE = [0] := by
    rw [h.line, ← List.append_assoc, List.drop_left']
    rw [List.length_append, h.size]
  rw [memcpy, Nat.zero_add, if_pos ⟨by omega, hrow.ge⟩, hdrop, List.take_zero, List.nil_append,
    List.take_of_length_le hrow.le, buffer_eq_row hs]

/-- The line is another one, and nothing is left of the one before. -/
theorem Shows.replace (e' : Editor) (h : Shows e sh stale) (hhistory : e'.history = e.history)
    (hafter : e'.after = []) (hplain : 0 ∉ e'.text) :
    Shows e' { sh with
      current_history := e'.current
      line := buffer e'.text
      line_position := e'.text.length
      line_curpos := e'.text.length } (List.replicate (FINSH_CMD_SIZE - e'.text.length) 0) where
  line := by
    have hfits : e'.text.length ≤ FINSH_CMD_SIZE := e'.fits.le
    rw [buffer_eq hfits, ← List.replicate_succ, List.replicate_succ']
  size := by
    have hfits : e'.text.length ≤ FINSH_CMD_SIZE := e'.fits.le
    rw [List.length_replicate]
    omega
  position := rfl
  curpos := by rw [LineEditor.text, hafter, List.append_nil]
  plain := hplain
  count := by rw [hhistory, ← h.count]
  current := rfl
  rows := by
    rw [hhistory]
    exact h.rows
  history_plain := by
    rw [hhistory]
    exact h.history_plain

theorem Shows.copyHistory (h : Shows e sh stale) (hi : i < e.history.length) :
    ∃ sh' stale', Shell.copyHistory { sh with current_history := i } = some sh' ∧
      Shows (e.recallAt i hi) sh' stale' ∧ sh'.stat = sh.stat := by
  have hshort := e.short _ (List.getElem_mem hi)
  have hplain := h.history_plain _ (List.getElem_mem hi)
  have htext : (e.recallAt i hi).text = e.history[i] := List.append_nil _
  have hread := cstrAt_buffer hplain hshort.le (Nat.zero_le _)
  rw [List.drop_zero] at hread
  refine ⟨_, _, ?_, h.replace (e.recallAt i hi) rfl rfl (htext ▸ hplain), rfl⟩
  simp only [Shell.copyHistory, h.readRow hi, h.copyRow hshort.le, hread, Option.bind_eq_bind,
    Option.bind_some, htext]
  rfl

theorem Shows.upKey (h : Shows e sh stale) :
    ∃ sh' stale', Shell.upKey sh = some sh' ∧ Shows e.older sh' stale' ∧ sh'.stat = sh.stat := by
  have hle := e.current_le
  have hcurrent := h.current
  rw [Shell.upKey]
  by_cases hpos : 0 < sh.current_history
  · have hi : sh.current_history - 1 < e.history.length := by omega
    rw [if_pos hpos, LineEditor.older_eq hi (by omega)]
    exact h.copyHistory hi
  · obtain hzero : sh.current_history = 0 := by omega
    rw [if_neg hpos, LineEditor.older, dif_neg (by omega)]
    exact ⟨sh, stale, by rw [← hzero], h, rfl⟩

theorem Shows.downKey (h : Shows e sh stale) :
    ∃ sh' stale', Shell.downKey sh = some sh' ∧ Shows e.newer sh' stale' ∧ sh'.stat = sh.stat := by
  have hle := e.current_le
  have hcurrent := h.current
  have hcount := h.count
  rw [Shell.downKey]
  by_cases hnext : (sh.current_history : Int) < sh.history_count - 1
  · have hi : sh.current_history + 1 < e.history.length := by omega
    rw [if_pos hnext, LineEditor.newer_eq hi (by omega)]
    exact h.copyHistory hi
  rw [if_neg hnext]
  by_cases hpos : sh.history_count ≠ 0
  · have hi : sh.history_count - 1 < e.history.length := by omega
    rw [if_pos hpos, LineEditor.newer_eq hi (by omega)]
    exact h.copyHistory hi
  · rw [if_neg hpos, LineEditor.newer, dif_neg (by omega)]
    exact ⟨sh, stale, rfl, h, rfl⟩

/-- The buffer holds the line and nothing else. -/
theorem Shows.cleared (h : Shows e sh stale) (hc : Cleared sh) : sh.line = buffer e.text := by
  have hfits : e.text.length ≤ FINSH_CMD_SIZE := e.fits.le
  have hsize := h.size
  have hdrop : sh.line.drop sh.line_position = stale ++ [0] := by
    rw [h.line, h.position, List.drop_left]
  rw [Cleared, hdrop] at hc
  have hzero := List.eq_replicate_of_mem hc
  have hroom : (stale ++ [0]).length = FINSH_CMD_SIZE + 1 - e.text.length := by
    rw [List.length_append, List.length_singleton]
    omega
  rw [h.line, buffer, ← hroom, ← hzero]

theorem Shows.tabKey {w : World} (h : Shows e sh stale) (hc : Cleared sh)
    (hfits : (completion w e.text).length < FINSH_CMD_SIZE) :
    ∃ sh' stale', Shell.tabKey w sh = some sh' ∧ Shows (e.press w .tab) sh' stale' ∧
      sh'.stat = sh.stat := by
  have hplain : 0 ∉ completion w e.text := completion_plain h.plain
  have hpress : e.press w .tab = LineEditor.replace e (completion w e.text) hfits := dif_pos hfits
  have htext : (LineEditor.replace e (completion w e.text) hfits).text = completion w e.text :=
    List.append_nil _
  have hread := cstrAt_buffer hplain hfits.le (Nat.zero_le _)
  rw [List.drop_zero] at hread
  rw [hpress]
  refine ⟨_, _, ?_, h.replace (LineEditor.replace e (completion w e.text) hfits) rfl rfl
    (by rwa [htext]), rfl⟩
  simp only [Shell.tabKey, h.cleared hc, shell_auto_complete_buffer h.plain e.fits.le hfits.le, hread,
    Option.bind_eq_bind, Option.bind_some, htext]
  rw [h.current]
  rfl

end Recall

section History

variable {e : Editor} {sh : FinshShell} {stale s t : List UInt8}

theorem row_inj (hs : 0 ∉ s) (ht : 0 ∉ t) (hslen : s.length ≤ FINSH_CMD_SIZE)
    (htlen : t.length ≤ FINSH_CMD_SIZE) (h : row s = row t) : s = t := by
  have hread := cstrAt_buffer hs hslen (Nat.zero_le _)
  have hread' := cstrAt_buffer ht htlen (Nat.zero_le _)
  rw [buffer_eq_row hslen, h, ← buffer_eq_row htlen, hread', List.drop_zero, List.drop_zero] at hread
  exact (Option.some.inj hread).symm

/-- A row of the history differs from the line when the commands do. -/
theorem memcmp_row (hs : 0 ∉ s) (ht : 0 ∉ t) (hslen : s.length ≤ FINSH_CMD_SIZE)
    (htlen : t.length ≤ FINSH_CMD_SIZE) :
    memcmp (row s) (buffer t) FINSH_CMD_SIZE = some (decide (s ≠ t)) := by
  have hrow := length_row hslen
  have hrow' := length_row htlen
  have hlen := length_buffer htlen
  have htake : (buffer t).take FINSH_CMD_SIZE = row t := by
    rw [buffer_eq_row htlen, List.take_left' hrow']
  rw [memcmp, if_pos ⟨by omega, by omega⟩, htake, List.take_of_length_le hrow.le]
  congr 1
  refine decide_eq_decide.mpr (not_congr ⟨row_inj hs ht hslen htlen, fun heq => heq ▸ rfl⟩)

theorem setHistory_buffer (rows : List (List UInt8)) {i : Nat} (hs : s.length ≤ FINSH_CMD_SIZE)
    (hi : i < rows.length) : setHistory rows i (buffer s) s.length = some (rows.set i (row s)) := by
  have hcopy : memcpy (List.replicate FINSH_CMD_SIZE 0) 0 (buffer s) s.length = some (row s) := by
    rw [memcpy, List.length_replicate, Nat.zero_add, if_pos ⟨hs, by simp [buffer]⟩, buffer,
      List.take_left, List.drop_replicate, List.take_zero, List.nil_append, row]
  rw [setHistory, hcopy, Option.bind_eq_bind, Option.bind_some, if_pos hi]

/-- What the history is after a push. -/
def Pushed (e : Editor) (rows : List (List UInt8)) : Prop :=
  ∃ spare, rows = e.push.map row ++ spare ∧ e.push.length + spare.length = FINSH_HISTORY_LINES

theorem list_of_five {α : Type} (l : List α) (h : l.length = 5) :
    ∃ a b c d f, l = [a, b, c, d, f] := by
  match l, h with
  | [a, b, c, d, f], _ => exact ⟨a, b, c, d, f, rfl⟩

/-- All rows are in use: the oldest command goes. -/
theorem Shows.push_full (h : Shows e sh stale) (hc : Cleared sh) (hne : e.text ≠ [])
    (hfull : e.history.length = FINSH_HISTORY_LINES) :
    ∃ rows, shell_push_history sh = some { sh with
        current_history := e.push.length
        history_count := e.push.length
        cmd_history := rows } ∧ Pushed e rows := by
  have hline := h.cleared hc
  have hposition : sh.line_position ≠ 0 := by
    rw [h.position]
    exact mt List.length_eq_zero_iff.mp hne
  have hcount : sh.history_count = FINSH_HISTORY_LINES := h.count.trans hfull
  obtain ⟨spare, hrows, hspare⟩ := h.rows
  obtain rfl : spare = [] := by
    rw [← List.length_eq_zero_iff]
    omega
  obtain ⟨a, b, c, d, f, hhistory⟩ := list_of_five e.history hfull
  have hf : f ∈ e.history := by simp [hhistory]
  have hcmp := memcmp_row (h.history_plain f hf) h.plain (e.short f hf).le e.fits.le
  have hset := setHistory_buffer [row b, row c, row d, row f, row f]
    (i := FINSH_HISTORY_LINES - 1) (s := e.text) e.fits.le (by simp [FINSH_HISTORY_LINES])
  have hlast : sh.cmd_history[FINSH_HISTORY_LINES - 1]? = some (row f) := by
    rw [hrows, hhistory]
    rfl
  have hmove : moveHistory sh.cmd_history (FINSH_HISTORY_LINES - 1) =
      some [row b, row c, row d, row f, row f] := by
    rw [hrows, hhistory]
    rfl
  simp only [shell_push_history, hposition, hcount, hlast, hline, hcmp, if_true, le_refl,
    Option.bind_eq_bind, Option.bind_some, ne_eq, not_false_eq_true]
  by_cases hsame : f = e.text
  · have hpush : e.push = e.history := if_pos (.inr (by rw [hhistory, ← hsame]; rfl))
    refine ⟨sh.cmd_history, ?_, [], ?_, ?_⟩
    · simp [hsame, hpush, hfull]
    · rw [hpush, hrows]
    · rw [hpush, hfull]
      rfl
  · have hpush : e.push = [b, c, d, f, e.text] := by
      rw [LineEditor.push, if_neg (by simp [hne, hhistory, hsame]), hhistory]
      rfl
    refine ⟨[row b, row c, row d, row f, row e.text], ?_, [], ?_, ?_⟩
    · simp only [decide_eq_true hsame, hmove, h.position, if_true, Option.bind_some, hset, hpush]
      rfl
    · rw [hpush]
      rfl
    · rw [hpush]
      rfl

/-- A row is free. -/
theorem Shows.push_next (h : Shows e sh stale) (hc : Cleared sh) (hne : e.text ≠ [])
    (hroom : e.history.length < FINSH_HISTORY_LINES) :
    ∃ rows, shell_push_history sh = some { sh with
        current_history := e.push.length
        history_count := e.push.length
        cmd_history := rows } ∧ Pushed e rows := by
  have hline := h.cleared hc
  have hposition : sh.line_position ≠ 0 := by
    rw [h.position]
    exact mt List.length_eq_zero_iff.mp hne
  have hcount : ¬FINSH_HISTORY_LINES ≤ e.history.length := Nat.not_le.mpr hroom
  have hfive : FINSH_HISTORY_LINES = 5 := rfl
  obtain ⟨spare, hrows, hspare⟩ := h.rows
  have hdiffers : differs sh = some (decide (e.history.getLast? ≠ some e.text)) := by
    rw [differs, h.count]
    by_cases hzero : e.history.length = 0
    · rw [if_pos hzero, List.length_eq_zero_iff.mp hzero]
      simp
    · have hi : e.history.length - 1 < e.history.length := by omega
      have hmem := List.getElem_mem hi
      have hcmp := memcmp_row (h.history_plain _ hmem) h.plain (e.short _ hmem).le e.fits.le
      rw [if_neg hzero, h.readRow hi, Option.bind_eq_bind, Option.bind_some, hline, hcmp,
        List.getLast?_eq_getElem?, List.getElem?_eq_getElem hi]
      simp
  by_cases hsame : e.history.getLast? = some e.text
  · have hpush : e.push = e.history := if_pos (.inr hsame)
    refine ⟨sh.cmd_history, ?_, spare, ?_, ?_⟩
    · simp [shell_push_history, hposition, hcount, hdiffers, hsame, hpush, h.count]
    · rw [hpush, hrows]
    · rw [hpush, hspare]
  · have hpush : e.push = e.history ++ [e.text] := by
      rw [LineEditor.push, if_neg (by simp [hne, hsame])]
      have hdrop : e.history.length + 1 - FINSH_HISTORY_LINES = 0 := by omega
      rw [hdrop, List.drop_zero]
    obtain ⟨y, spare, rfl⟩ : ∃ y rest, spare = y :: rest := by
      refine List.exists_cons_of_ne_nil fun hnil => ?_
      rw [hnil, List.length_nil] at hspare
      omega
    have hlen : sh.cmd_history.length = FINSH_HISTORY_LINES := by
      rw [hrows, List.length_append, List.length_map, hspare]
    have hset := setHistory_buffer sh.cmd_history (i := e.history.length) (s := e.text)
      e.fits.le (by omega)
    have hincr : incr e.history.length = e.push.length := by
      rw [hpush, incr, List.length_append, List.length_singleton]
      omega
    have hrow : sh.cmd_history.set e.history.length (row e.text) =
        e.history.map row ++ row e.text :: spare := by
      rw [hrows, List.set_append_right _ _ (by rw [List.length_map]), List.length_map, Nat.sub_self,
        List.set_cons_zero]
    refine ⟨e.history.map row ++ row e.text :: spare, ?_, spare, ?_, ?_⟩
    · simp only [shell_push_history, hcount, hdiffers, hline, h.position, h.count, hset, hincr,
        decide_eq_true hsame, if_true, if_false, ne_eq, Option.bind_eq_bind, Option.bind_some]
      rw [if_pos (mt List.length_eq_zero_iff.mp hne), hrow]
    · rw [hpush, List.map_append, List.append_assoc]
      rfl
    · rw [List.length_cons] at hspare
      rw [hpush, List.length_append, List.length_singleton]
      omega

theorem Shows.push (h : Shows e sh stale) (hc : Cleared sh ∨ e.text = []) :
    ∃ rows, shell_push_history sh = some { sh with
        current_history := e.push.length
        history_count := e.push.length
        cmd_history := rows } ∧ Pushed e rows := by
  by_cases hempty : e.text = []
  · have hpush : e.push = e.history := if_pos (.inl hempty)
    have hzero : ¬sh.line_position ≠ 0 := by
      rw [h.position, hempty]
      simp
    have hrows := h.rows
    refine ⟨sh.cmd_history, ?_, ?_⟩
    · simp only [shell_push_history, hzero, if_false, Option.bind_eq_bind, Option.bind_some, hpush,
        h.count]
    · rwa [Pushed, hpush]
  · have hc := hc.resolve_right hempty
    rcases Nat.lt_or_eq_of_le e.kept with hroom | hfull
    · exact h.push_next hc hempty hroom
    · exact h.push_full hc hempty hfull

end History

section Enter

variable {w : World} {e : Editor} {sh : FinshShell} {stale : List UInt8}

/-- A line can be run when the buffer holds nothing else, and an empty one also when no blank is
left in its place. -/
def Runnable (sh : FinshShell) : Prop :=
  Cleared sh ∨ sh.line_position = 0 ∧ ∀ c ∈ sh.line.head?, isBlank c = false

instance (sh : FinshShell) : Decidable (Runnable sh) :=
  inferInstanceAs (Decidable (Cleared sh ∨
    sh.line_position = 0 ∧ ∀ c ∈ sh.line.head?, isBlank c = false))

/-- The arguments of a command are pieces of a line. -/
def PiecesOf (s : List UInt8) (ret : Exec) : Prop :=
  ∀ func argv, ret = .command func argv → ∀ a ∈ argv, a <:+: s

theorem runLine_buffer {s : List UInt8} (w : World) (hplain : 0 ∉ s) (hfits : s.length < FINSH_CMD_SIZE) :
    ∃ ret, runLine w (buffer s) s.length = some ret ∧ execLine w s = some ret ∧ PiecesOf s ret := by
  rw [runLine, execLine, buffer_eq hfits.le]
  cases w.msh_is_used with
  | true =>
    obtain ⟨ret, hret, hpieces⟩ := msh_exec_line w hplain hfits
    have hextend := msh_exec_extend (List.replicate (FINSH_CMD_SIZE - s.length) 0) hret
    rw [List.append_assoc, List.singleton_append] at hextend
    exact ⟨ret, hextend, hret, hpieces⟩
  | false =>
    simp only [Bool.false_eq_true, if_false, write_at, Option.bind_eq_bind, Option.bind_some]
    by_cases hempty : s = []
    · exact ⟨.nothing, by simp [hempty], by simp [hempty], by simp [PiecesOf]⟩
    · have hlen : s.length ≠ 0 := mt List.length_eq_zero_iff.mp hempty
      obtain ⟨n, hn⟩ : ∃ n, FINSH_CMD_SIZE - s.length = n + 1 :=
        ⟨FINSH_CMD_SIZE - s.length - 1, by omega⟩
      have hread : cstrAt (s ++ chr ';' :: List.replicate (FINSH_CMD_SIZE - s.length) 0) 0 =
          some (s ++ [chr ';']) := by
        refine cstrAt_iff.mpr ⟨List.replicate n 0, ?_, ?_⟩
        · rw [List.drop_zero, hn, List.replicate_succ, List.append_assoc, List.singleton_append]
        · rw [List.mem_append, not_or]
          exact ⟨hplain, by decide⟩
      rw [if_pos hlen, if_neg hempty, hread]
      exact ⟨_, rfl, rfl, by simp [PiecesOf]⟩

/-- Nothing is run when the line is empty, whatever is behind it. -/
theorem runLine_empty {c : UInt8} (w : World) (rest : List UInt8) (hc : isBlank c = false) :
    runLine w (c :: rest) 0 = some .nothing ∧ execLine w [] = some .nothing := by
  rw [runLine, execLine]
  cases w.msh_is_used with
  | true => simp [msh_exec, trimCmd, hc, show isBlank 0 = false by decide]
  | false => simp [write]

theorem Shows.runLine (w : World) (h : Shows e sh stale) (hr : Runnable sh) :
    ∃ ret, Shell.runLine w sh.line sh.line_position = some ret ∧ execLine w e.text = some ret ∧
      PiecesOf e.text ret := by
  rcases hr with hc | ⟨hzero, hhead⟩
  · rw [h.cleared hc, h.position]
    exact runLine_buffer w h.plain e.fits
  · have hempty : e.text = [] := by
      rw [← List.length_eq_zero_iff, ← h.position, hzero]
    obtain ⟨c, rest, hline⟩ := List.exists_cons_of_length_eq_add_one h.length
    rw [hline] at hhead
    obtain ⟨hrun, hexec⟩ := runLine_empty w rest (hhead c rfl)
    rw [hline, hzero, hempty]
    exact ⟨_, hrun, hexec, by simp [PiecesOf]⟩

theorem Shows.enterKey (w : World) (h : Shows e sh stale) (hr : Runnable sh) :
    ∃ sh' stale' ret, Shell.enterKey w sh = some (sh', ret) ∧ Shows e.enter sh' stale' ∧
      sh'.stat = sh.stat ∧ execLine w e.text = some ret ∧ PiecesOf e.text ret := by
  have hempty : Cleared sh ∨ e.text = [] := by
    refine hr.imp_right fun hzero => ?_
    rw [← List.length_eq_zero_iff, ← h.position, hzero.1]
  obtain ⟨rows, hpush, hpushed⟩ := h.push hempty
  obtain ⟨ret, hret, hexec, hpieces⟩ := h.runLine w hr
  have hstep : Shell.enterKey w sh = some ({ sh with
      current_history := e.push.length
      history_count := e.push.length
      cmd_history := rows
      line := List.replicate (FINSH_CMD_SIZE + 1) 0
      line_position := 0
      line_curpos := 0 }, ret) := by
    simp only [Shell.enterKey, hpush, hret, Option.bind_eq_bind, Option.bind_some]
  refine ⟨_, List.replicate FINSH_CMD_SIZE 0, ret, hstep, ?_, rfl, hexec, hpieces⟩
  exact {
    line := rfl
    size := rfl
    position := rfl
    curpos := rfl
    plain := List.not_mem_nil
    count := rfl
    current := rfl
    rows := hpushed
    history_plain := by
      intro s hs
      rcases e.mem_push hs with hs | rfl
      · exact h.history_plain s hs
      · exact h.plain }

end Enter

end Ab32Vg1.Finsh.Shell
