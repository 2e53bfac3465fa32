import Ab32Vg1.Finsh.ShellKeys

/-! The bytes of the keys: the shell shows the line of the editor after every byte, and runs the
lines that are entered. -/

namespace Ab32Vg1.Finsh.Shell

open Msh ProofKit

/-! ### Bytes -/

/-- The key that a byte stands for when no escape sequence is open. -/
def plainByte (ch : UInt8) : Option Key :=
  if ch = 0 ∨ ch = 0xFF then none
  else if ch = chr '\t' then some .tab
  else if ch = 0x7f ∨ ch = 0x08 then some (.backspace (decide (ch = 0x7f)))
  else if ch = chr '\r' ∨ ch = chr '\n' then some (.enter (decide (ch = chr '\n')))
  else some (.char ch)

/-- The key that a byte ends. -/
def readByte (stat : InputStat) (ch : UInt8) : InputStat × Option Key :=
  if ch = 0x1b then (.WAIT_SPEC_KEY, none)
  else
    match stat with
    | .WAIT_SPEC_KEY => if ch = 0x5b then (.WAIT_FUNC_KEY, none) else (.WAIT_NORMAL, plainByte ch)
    | .WAIT_FUNC_KEY =>
      (.WAIT_NORMAL,
        if ch = 0x41 then some .up
        else if ch = 0x42 then some .down
        else if ch = 0x44 then some .left
        else if ch = 0x43 then some .right
        else plainByte ch)
    | .WAIT_NORMAL => (.WAIT_NORMAL, plainByte ch)

/-- The completed line is shorter than the buffer. -/
def CompletionFits (w : World) (sh : FinshShell) (ch : UInt8) : Prop :=
  ch = chr '\t' → (completion w (sh.line.take sh.line_position)).length < FINSH_CMD_SIZE

/-- Nothing of a discarded line is behind the line when it is completed or run. -/
def NothingLeft (_ : World) (sh : FinshShell) (ch : UInt8) : Prop :=
  (ch = chr '\t' → Cleared sh) ∧ (ch = chr '\r' ∨ ch = chr '\n' → Runnable sh)

/-- The lines came to what they come to on their own, with pieces of them as arguments. -/
def Executed (lines : List (World × List UInt8)) (rets : List Exec) : Prop :=
  List.Forall₂ (fun line ret => execLine line.1 line.2 = some ret ∧ PiecesOf line.2 ret) lines rets

section Turn

variable {w : World} {e : Editor} {sh : FinshShell} {stale : List UInt8} {ch : UInt8}

/-- The editor after a key, if there was one. -/
def Editor.after (w : World) (e : Editor) : Option Key → Editor
  | none => e
  | some key => e.press w key

def Editor.lines (w : World) (e : Editor) : Option Key → List (World × List UInt8)
  | none => []
  | some key => e.entered w key

/-- What a byte leads to. -/
def Follows (w : World) (e : Editor) (stat : InputStat) (key : Option Key)
    (next : Option (FinshShell × Option Exec)) : Prop :=
  ∃ sh' ret stale', next = some (sh', ret) ∧ sh'.stat = stat ∧ Shows (e.after w key) sh' stale' ∧
    Executed (e.lines w key) ret.toList

/-- A key without a line at its end. -/
theorem Follows.silent (key : Key) {next : Option FinshShell}
    (h : ∃ sh' stale', next = some sh' ∧ Shows (e.press w key) sh' stale' ∧ sh'.stat = sh.stat)
    (hkey : e.entered w key = []) : Follows w e sh.stat (some key) (next.map (·, none)) := by
  obtain ⟨sh', stale', rfl, hshows, hstat⟩ := h
  refine ⟨sh', none, stale', rfl, hstat, hshows, ?_⟩
  rw [Editor.lines, hkey]
  exact .nil

theorem Shows.plainKey (h : Shows e sh stale) (hfits : CompletionFits w sh ch)
    (hleft : NothingLeft w sh ch) :
    Follows w e sh.stat (plainByte ch) (Shell.plainKey w sh ch) := by
  rw [plainByte, Shell.plainKey]
  by_cases hnull : ch = 0 ∨ ch = 0xFF
  · rw [if_pos hnull, if_pos hnull]
    exact ⟨sh, none, stale, rfl, rfl, h, .nil⟩
  rw [if_neg hnull, if_neg hnull]
  by_cases htab : ch = chr '\t'
  · have hfits := hfits htab
    rw [h.line, h.position, List.take_left] at hfits
    rw [if_pos htab, if_pos htab]
    exact .silent .tab (h.tabKey (hleft.1 htab) hfits) rfl
  rw [if_neg htab, if_neg htab]
  by_cases hback : ch = 0x7f ∨ ch = 0x08
  · rw [if_pos hback, if_pos hback]
    exact .silent (.backspace _) h.backspaceKey rfl
  rw [if_neg hback, if_neg hback]
  by_cases hend : ch = chr '\r' ∨ ch = chr '\n'
  · obtain ⟨sh', stale', ret, hstep, hshows, hstat, hexec, hpieces⟩ := h.enterKey w (hleft.2 hend)
    rw [if_pos hend, if_pos hend, hstep]
    exact ⟨sh', some ret, stale', rfl, hstat, hshows, .cons ⟨hexec, hpieces⟩ .nil⟩
  rw [if_neg hend, if_neg hend]
  exact .silent (.char ch) (h.normalKey fun hzero => hnull (.inl hzero)) rfl

/-- The state of the escape sequence is apart from the rest. -/
theorem Shows.withStat (h : Shows e sh stale) (stat : InputStat) :
    Shows e { sh with stat := stat } stale := { h with }

/-- One turn of the loop. -/
theorem Shows.turn (h : Shows e sh stale) (hfits : CompletionFits w sh ch)
    (hleft : NothingLeft w sh ch) :
    Follows w e (readByte sh.stat ch).1 (readByte sh.stat ch).2 (Shell.turn w sh ch) := by
  have hnormal := h.withStat .WAIT_NORMAL
  rw [readByte.eq_def, Shell.turn.eq_def]
  by_cases hesc : ch = 0x1b
  · rw [if_pos hesc, if_pos hesc]
    exact ⟨_, none, stale, rfl, rfl, h.withStat .WAIT_SPEC_KEY, .nil⟩
  rw [if_neg hesc, if_neg hesc]
  cases hstat : sh.stat with
  | WAIT_NORMAL =>
    have hplain := h.plainKey hfits hleft
    rwa [hstat] at hplain
  | WAIT_SPEC_KEY =>
    by_cases hbracket : ch = 0x5b
    · simp only [hbracket, if_true]
      exact ⟨_, none, stale, rfl, rfl, h.withStat .WAIT_FUNC_KEY, .nil⟩
    · simp only [hbracket, if_false]
      exact hnormal.plainKey hfits hleft
  | WAIT_FUNC_KEY =>
    simp only
    by_cases hup : ch = 0x41
    · rw [if_pos hup, if_pos hup]
      exact .silent .up hnormal.upKey rfl
    rw [if_neg hup, if_neg hup]
    by_cases hdown : ch = 0x42
    · rw [if_pos hdown, if_pos hdown]
      exact .silent .down hnormal.downKey rfl
    rw [if_neg hdown, if_neg hdown]
    by_cases hl : ch = 0x44
    · rw [if_pos hl, if_pos hl]
      exact ⟨_, none, stale, rfl, hnormal.leftKey.2, hnormal.leftKey.1, .nil⟩
    rw [if_neg hl, if_neg hl]
    by_cases hr : ch = 0x43
    · rw [if_pos hr, if_pos hr]
      exact ⟨_, none, stale, rfl, hnormal.rightKey.2, hnormal.rightKey.1, .nil⟩
    rw [if_neg hr, if_neg hr]
    exact hnormal.plainKey hfits hleft

end Turn

/-! ### Runs -/

/-- A condition on the state before each byte of a run. -/
def Throughout (P : World → FinshShell → UInt8 → Prop) :
    FinshShell → List (World × UInt8) → Prop
  | _, [] => True
  | sh, (w, ch) :: input =>
    P w sh ch ∧
      match turn w sh ch with
      | none => True
      | some (sh', _) => Throughout P sh' input

instance (w : World) (sh : FinshShell) (ch : UInt8) : Decidable (CompletionFits w sh ch) :=
  inferInstanceAs (Decidable (_ → _))

instance (w : World) (sh : FinshShell) (ch : UInt8) : Decidable (NothingLeft w sh ch) :=
  inferInstanceAs (Decidable ((_ → _) ∧ (_ → _)))

/-- The run decides the condition. -/
def Throughout.decide (P : World → FinshShell → UInt8 → Prop) [∀ w sh ch, Decidable (P w sh ch)] :
    ∀ sh input, Decidable (Throughout P sh input)
  | _, [] => isTrue trivial
  | sh, (w, ch) :: input =>
    match hturn : turn w sh ch with
    | none => decidable_of_iff (P w sh ch) (by simp [Throughout, hturn])
    | some (sh', _) =>
      have := Throughout.decide P sh' input
      decidable_of_iff (P w sh ch ∧ Throughout P sh' input) (by simp [Throughout, hturn])

instance (P : World → FinshShell → UInt8 → Prop) [∀ w sh ch, Decidable (P w sh ch)]
    (sh : FinshShell) (input : List (World × UInt8)) : Decidable (Throughout P sh input) :=
  Throughout.decide P sh input

/-- What the bytes mean to an editor. -/
def Editor.feed (stat : InputStat) (e : Editor) :
    List (World × UInt8) → InputStat × Editor × List (World × List UInt8)
  | [] => (stat, e, [])
  | (w, ch) :: input =>
    let key := readByte stat ch
    let rest := Editor.feed key.1 (e.after w key.2) input
    (rest.1, rest.2.1, e.lines w key.2 ++ rest.2.2)

/-- The bytes of some keys. -/
def typed (keys : List (World × Key)) : List (World × UInt8) :=
  keys.flatMap fun (w, key) => key.bytes.map fun ch => (w, ch)

section Run

variable {e : Editor} {sh : FinshShell} {stale : List UInt8}

theorem Shows.feed {input : List (World × UInt8)} (h : Shows e sh stale)
    (hfits : Throughout CompletionFits sh input) (hleft : Throughout NothingLeft sh input) :
    ∃ sh' rets stale', finsh_thread_entry sh input = some (sh', rets) ∧
      Shows (Editor.feed sh.stat e input).2.1 sh' stale' ∧
      Executed (Editor.feed sh.stat e input).2.2 rets := by
  induction input generalizing e sh stale with
  | nil => exact ⟨sh, [], stale, rfl, h, .nil⟩
  | cons byte input ih =>
    obtain ⟨w, ch⟩ := byte
    obtain ⟨hfits, hfits'⟩ := hfits
    obtain ⟨hleft, hleft'⟩ := hleft
    obtain ⟨sh', ret, stale', hturn, hstat, hshows, hexec⟩ := h.turn hfits hleft
    rw [hturn] at hfits' hleft'
    obtain ⟨sh'', rets, stale'', hrun, hshows', hexec'⟩ := ih hshows hfits' hleft'
    rw [hstat] at hshows' hexec'
    refine ⟨sh'', ret.toList ++ rets, stale'', ?_, hshows', List.rel_append hexec hexec'⟩
    simp only [finsh_thread_entry, hturn, hrun, Option.bind_eq_bind, Option.bind_some]

theorem readByte_char {c : UInt8} (h : (Key.char c).Typed) :
    readByte .WAIT_NORMAL c = (.WAIT_NORMAL, some (.char c)) := by
  obtain ⟨hlow, hhigh⟩ := h
  have hne (k : UInt8) (hk : ¬(0x20 ≤ k ∧ k ≤ 0x7e)) : c ≠ k := fun heq => hk (heq ▸ ⟨hlow, hhigh⟩)
  have hesc := hne 0x1b (by decide)
  have hnul := hne 0 (by decide)
  have hff := hne 0xFF (by decide)
  have htab := hne (chr '\t') (by decide)
  have hdel := hne 0x7f (by decide)
  have hback := hne 0x08 (by decide)
  have hcr := hne (chr '\r') (by decide)
  have hnl := hne (chr '\n') (by decide)
  simp [readByte.eq_def, plainByte, hesc, hnul, hff, htab, hdel, hback, hcr, hnl]

/-- The bytes of a key mean the key. -/
theorem feed_bytes {w : World} {key : Key} (e : Editor) (rest : List (World × UInt8))
    (h : key.Typed) :
    Editor.feed .WAIT_NORMAL e (key.bytes.map (fun ch => (w, ch)) ++ rest) =
      ((Editor.feed .WAIT_NORMAL (e.press w key) rest).1,
        (Editor.feed .WAIT_NORMAL (e.press w key) rest).2.1,
        e.entered w key ++ (Editor.feed .WAIT_NORMAL (e.press w key) rest).2.2) := by
  cases key with
  | char c =>
    simp only [Key.bytes, List.map_cons, List.map_nil, List.singleton_append, Editor.feed,
      readByte_char h]
    rfl
  | backspace delete => cases delete <;> rfl
  | enter newline => cases newline <;> rfl
  | left | right | up | down | tab => rfl

theorem feed_typed {keys : List (World × Key)} (h : ∀ key ∈ keys, key.2.Typed) (e : Editor) :
    Editor.feed .WAIT_NORMAL e (typed keys) = (.WAIT_NORMAL, e.type keys) := by
  induction keys generalizing e with
  | nil => rfl
  | cons key keys ih =>
    obtain ⟨w, key⟩ := key
    have ih := ih (fun key hkey => h key (List.mem_cons_of_mem _ hkey)) (e.press w key)
    have hbytes := feed_bytes (w := w) e (typed keys) (h _ (List.mem_cons_self ..))
    rw [ih] at hbytes
    exact hbytes

theorem shows_zero : Shows .empty .zero (List.replicate FINSH_CMD_SIZE 0) where
  line := rfl
  size := rfl
  position := rfl
  curpos := rfl
  plain := List.not_mem_nil
  count := rfl
  current := rfl
  rows := ⟨List.replicate FINSH_HISTORY_LINES (List.replicate FINSH_CMD_SIZE 0), rfl, rfl⟩
  history_plain := by
    intro s hs
    exact absurd hs List.not_mem_nil

theorem Shows.bounds (h : Shows e sh stale) :
    sh.line_curpos ≤ sh.line_position ∧ sh.line_position < FINSH_CMD_SIZE := by
  rw [h.curpos, h.position]
  refine ⟨?_, e.fits⟩
  rw [LineEditor.text, List.length_append]
  exact Nat.le_add_right ..

end Run

/-- As long as nothing of a discarded line is behind the line when it is completed or run, the
positions stay in the buffer, whatever bytes come; and when keys are typed, the line is the line of
the editor, and the lines that were entered came to what they come to on their own. -/
theorem shell_edits_lines (input : List (World × UInt8)) (keys : List (World × Key)) :
    (Throughout CompletionFits .zero input → Throughout NothingLeft .zero input →
      ∃ sh rets, finsh_thread_entry .zero input = some (sh, rets) ∧
        sh.line_curpos ≤ sh.line_position ∧ sh.line_position < FINSH_CMD_SIZE) ∧
    ((∀ key ∈ keys, key.2.Typed) →
      Throughout CompletionFits .zero (typed keys) → Throughout NothingLeft .zero (typed keys) →
      ∃ sh rets, finsh_thread_entry .zero (typed keys) = some (sh, rets) ∧
        sh.line.take sh.line_position = (Editor.empty.type keys).1.text ∧
        sh.line_curpos = (Editor.empty.type keys).1.before.length ∧
        Executed (Editor.empty.type keys).2 rets) := by
  constructor
  · intro hfits hleft
    obtain ⟨sh, rets, stale, hrun, hshows, -⟩ := shows_zero.feed hfits hleft
    exact ⟨sh, rets, hrun, hshows.bounds⟩
  · intro htyped hfits hleft
    obtain ⟨sh, rets, stale, hrun, hshows, hexec⟩ := shows_zero.feed hfits hleft
    rw [show FinshShell.zero.stat = .WAIT_NORMAL from rfl, feed_typed htyped] at hshows hexec
    refine ⟨sh, rets, hrun, ?_, hshows.curpos, hexec⟩
    rw [hshows.line, hshows.position, List.take_left]

/-- `help` -/
def helpWord : List UInt8 := [chr 'h', chr 'e', chr 'l', chr 'p']

/-- A system with the command `help`. -/
def helpOnly : World where
  msh_is_used := true
  symbols :=
    { global_variable := 0
      sysvar_table := []
      sysvar_list := []
      syscall_table := [(cmdPrefix ++ helpWord, .syscall 0 0)]
      syscall_list := []
      heap_allocate := fun _ _ => none }
  working_directory := [chr '/']
  opendir := fun _ => none
  canOpen := fun _ => false
  rt_malloc := fun _ => true
  symbol_names := by decide
  dir_names := by simp

def onHelp (keys : List Key) : List (World × Key) := keys.map fun key => (helpOnly, key)

/-- `he`, Tab, Enter, Up, Enter. -/
def helpTwice : List (World × Key) :=
  onHelp [.char (chr 'h'), .char (chr 'e'), .tab, .enter false, .up, .enter false]

theorem help_twice_edits :
    (∃ sh rets, finsh_thread_entry .zero (typed helpTwice) = some (sh, rets) ∧
      sh.line_curpos ≤ sh.line_position ∧ sh.line_position < FINSH_CMD_SIZE) ∧
    ∃ sh rets, finsh_thread_entry .zero (typed helpTwice) = some (sh, rets) ∧
      sh.line.take sh.line_position = (Editor.empty.type helpTwice).1.text ∧
      sh.line_curpos = (Editor.empty.type helpTwice).1.before.length ∧
      Executed (Editor.empty.type helpTwice).2 rets :=
  have htwice := shell_edits_lines (typed helpTwice) helpTwice
  ⟨htwice.1 (by decide +kernel) (by decide +kernel),
    htwice.2 (by simp [helpTwice, onHelp, Key.Typed]; decide) (by decide +kernel) (by decide +kernel)⟩

/-- A line that is too long. -/
def overlong : List Key := List.replicate FINSH_CMD_SIZE (.char (chr 'x'))

/-- The same and then `help` and Enter. -/
def helpAfterDiscard : List (World × Key) :=
  onHelp (overlong ++ (helpWord.map .char ++ [.enter false]))

/-- The discarded line comes back: in the argument of the command, and with a Tab, which leaves the
position at the end of the buffer. -/
theorem discarded_line_returns :
    ((finsh_thread_entry .zero (typed helpAfterDiscard)).map (·.2) =
        some [.command (.syscall 0 0) [helpWord ++ List.replicate 76 (chr 'x')]] ∧
      (Editor.empty.type helpAfterDiscard).2.map (·.2) = [helpWord] ∧
      execLine helpOnly helpWord = some (.command (.syscall 0 0) [helpWord])) ∧
    (finsh_thread_entry .zero (typed (onHelp (overlong ++ [.tab])))).map (·.1.line_position) =
      some FINSH_CMD_SIZE := by
  decide +kernel

end Ab32Vg1.Finsh.Shell
