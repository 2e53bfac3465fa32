import Ab32Vg1.Finsh.Msh
import Ab32Vg1.Finsh.Parser

/-! `shell.c` and the completion of `msh.c`: the loop of `finsh_thread_entry` turns key bytes into a
line, and `msh_exec` runs it.  An access outside a buffer has no value.  What is printed on the way
is left out. -/

namespace Ab32Vg1.Finsh.Shell

open Msh

def FINSH_CMD_SIZE : Nat := 80

def FINSH_HISTORY_LINES : Nat := 5

/-! ### Strings in memory -/

def memmove (m : List UInt8) (dst src n : Nat) : Option (List UInt8) :=
  if dst + n ≤ m.length ∧ src + n ≤ m.length then
    some (m.take dst ++ ((m.drop src).take n ++ m.drop (dst + n)))
  else none

/-- `memcpy` from another buffer to the offset `dst`. -/
def memcpy (m : List UInt8) (dst : Nat) (src : List UInt8) (n : Nat) : Option (List UInt8) :=
  if dst + n ≤ m.length ∧ n ≤ src.length then some (m.take dst ++ (src.take n ++ m.drop (dst + n)))
  else none

/-- `memcmp` with the answer that two blocks differ. -/
def memcmp (a b : List UInt8) (n : Nat) : Option Bool :=
  if n ≤ a.length ∧ n ≤ b.length then some (decide (a.take n ≠ b.take n)) else none

def write (m : List UInt8) (i : Nat) (c : UInt8) : Option (List UInt8) :=
  if i < m.length then some (m.set i c) else none

/-- `strncmp` with the answer that two strings agree. -/
@[grind] def strncmp : List UInt8 → List UInt8 → Nat → Option Bool
  | _, _, 0 => some true
  | a :: s, b :: t, n + 1 =>
    if a ≠ b then some false else if a = 0 then some true else strncmp s t n
  | _, _, _ + 1 => none

@[grind] def str_common : List UInt8 → List UInt8 → Nat
  | a :: s, b :: t => if a = b then str_common s t + 1 else 0
  | _, _ => 0

/-! ### What the shell reads of the system -/

/-- The names that a user can call or read. -/
def names (symbols : Symbols) : List (List UInt8) :=
  symbols.syscall_table.map (·.1) ++ (symbols.syscall_list.map (·.1) ++
    (symbols.sysvar_table.map (·.1) ++ symbols.sysvar_list.map (·.1)))

/-- The system at the time of a key: the mode, the symbols, the working directory, the names in a
directory that can be opened, the files that can be opened, and the sizes that `rt_malloc` has.
Names are without the `NUL` that ends them. -/
structure World where
  msh_is_used : Bool
  symbols : Symbols
  working_directory : List UInt8
  opendir : List UInt8 → Option (List (List UInt8))
  canOpen : List UInt8 → Bool
  rt_malloc : Nat → Bool
  symbol_names : ∀ name ∈ names symbols, 0 ∉ name
  dir_names : ∀ path dir, opendir path = some dir → ∀ name ∈ dir, 0 ∉ name

/-- What comes of a line. -/
inductive Exec
  | nothing
  /-- `cmd_func(argc, argv)` -/
  | command (func : Ident) (argv : List (List UInt8))
  /-- The lines of the script that was opened under a name. -/
  | script (pg_name : List UInt8)
  /-- `"%s: command not found.\n"` -/
  | not_found (cmd : List UInt8)
  /-- `finsh_run_line` -/
  | run_line (line : List UInt8)
  deriving DecidableEq, Repr

/-! ### `msh_exec` -/

def cmdPrefix : List UInt8 := [chr '_', chr '_', chr 'c', chr 'm', chr 'd', chr '_']

/-- The loop over the function table from `index` on. -/
def msh_get_cmd (cmd : List UInt8) (size : Nat) : List (List UInt8 × Ident) → Option (Option Ident)
  | [] => some none
  | (name, func) :: index => do
    if !(← strncmp (name ++ [0]) (cmdPrefix ++ [0]) 6) then msh_get_cmd cmd size index
    else if !(← strncmp ((name ++ [0]).drop 6) cmd size) then msh_get_cmd cmd size index
    else if (← (name ++ [0])[6 + size]?) ≠ 0 then msh_get_cmd cmd size index
    else some (some func)

/-- The command that was called, or the buffer with the error. -/
def _msh_exec_cmd (w : World) (cmd : List UInt8) (length : Nat) :
    Option (Except (List UInt8) Exec) := do
  let cmd0_size ← skipWord length cmd 0
  if cmd0_size = 0 then some (.error cmd)
  else
    match ← msh_get_cmd cmd cmd0_size w.symbols.syscall_table with
    | none => some (.error cmd)
    | some cmd_func =>
      let r ← msh_split cmd length
      if r.argv.length = 0 then some (.error r.cmd)
      else
        let argv ← r.argv.mapM (cstrAt r.cmd)
        some (.ok (.command cmd_func argv))

def strstr (s t : List UInt8) : Bool := s.tails.any t.isPrefixOf

/-- `strstr(pg_name, ".sh") || strstr(pg_name, ".SH")` -/
def isScript (pg_name : List UInt8) : Bool :=
  strstr pg_name [chr '.', chr 's', chr 'h'] || strstr pg_name [chr '.', chr 'S', chr 'H']

def binDir : List UInt8 := [chr '/', chr 'b', chr 'i', chr 'n', chr '/']

/-- The name of the script that is run; `size` is an `int`. -/
def msh_exec_script (w : World) (cmd_line : List UInt8) (size : Nat) :
    Option (Option (List UInt8)) := do
  if size = 0 then some none
  else
    let cmd_length ← skipWord (if size < 2147483648 then size else 0) cmd_line 0
    let pg_name := (cmd_line.take cmd_length).takeWhile (· ≠ 0)
    if !w.rt_malloc (cmd_length + 32) then some none
    else if !isScript pg_name then some none
    else if w.canOpen pg_name then some (if w.rt_malloc 128 then some pg_name else none)
    else if w.canOpen (binDir ++ pg_name) then
      some (if w.rt_malloc 128 then some (binDir ++ pg_name) else none)
    else some none

/-- `while (*cmd == ' ' || *cmd == '\t')`; `length` is unsigned. -/
def trimCmd : List UInt8 → Nat → Option (List UInt8 × Nat)
  | [], _ => none
  | c :: cmd, length =>
    if isBlank c then trimCmd cmd ((length + 4294967295) % 4294967296) else some (c :: cmd, length)

def msh_exec (w : World) (cmd : List UInt8) (length : Nat) : Option Exec := do
  let (cmd, length) ← trimCmd cmd length
  if length = 0 then some .nothing
  else
    match ← _msh_exec_cmd w cmd length with
    | .ok ret => some ret
    | .error cmd =>
      match ← msh_exec_script w cmd length with
      | some pg_name => some (.script pg_name)
      | none =>
        let cmd ← cstrAt cmd 0
        some (.not_found (cmd.takeWhile (· ≠ chr ' ')))

/-! ### Completion -/

/-- One candidate in the loops: `name_ptr` and `min_length`, which is 0 only before the first. -/
def narrow (found : Option (List UInt8 × Nat)) (name : List UInt8) : Option (List UInt8 × Nat) :=
  match found with
  | none => some (name, min name.length (str_common name name))
  | some (name_ptr, min_length) => some (name_ptr, min min_length (str_common name_ptr name))

/-- The common part of the names that begin with a string, if there are any. -/
def matching (names : List (List UInt8)) (s : List UInt8) : Option (List UInt8) :=
  ((names.filter s.isPrefixOf).foldl narrow none).map fun (name_ptr, min_length) =>
    name_ptr.take min_length

/-- The offset of `index` in a path: behind the last `/`. -/
def nameStart (path : List UInt8) : Nat :=
  path.length - (path.reverse.takeWhile (· ≠ chr '/')).length

/-- The directory of a path; it fits in the 256 bytes of `full_path`. -/
def fullPath (w : World) (path : List UInt8) : List UInt8 :=
  (if path.head? ≠ some (chr '/') then
    w.working_directory ++
      (if w.working_directory.getLast? ≠ some (chr '/') then [chr '/'] else [])
  else []) ++ path.take (nameStart path)

/-- The path is the string at the offset `path` of the line. -/
def msh_auto_complete_path (w : World) (line : List UInt8) (path : Nat) : Option (List UInt8) := do
  let s ← cstrAt line path
  if !w.rt_malloc 256 then some line
  else
    match w.opendir (fullPath w s) with
    | none => some line
    | some dir =>
      let index := nameStart s
      if s.drop index = [] then some line
      else
        match matching dir (s.drop index) with
        | none => some line
        | some name =>
          let line ← memcpy line (path + index) name name.length
          write line (path + index + name.length) 0

/-- `while (ptr != prefix)`, down from `ptr` -/
def lastSpace (s : List UInt8) : Nat → Option Nat
  | 0 => none
  | ptr + 1 => if s[ptr + 1]? = some (chr ' ') then some (ptr + 1) else lastSpace s ptr

/-- The names of the commands of `msh`. -/
def commands (symbols : Symbols) : List (List UInt8) :=
  (symbols.syscall_table.filter fun (name, _) => cmdPrefix.isPrefixOf name).map (·.1.drop 6)

def msh_auto_complete (w : World) (line : List UInt8) : Option (List UInt8) := do
  let s ← cstrAt line 0
  if s = [] then some line
  else
    let line ←
      match lastSpace s s.length with
      | some ptr => msh_auto_complete_path w line (ptr + 1)
      | none => some line
    let s ← cstrAt line 0
    match matching (commands w.symbols) s with
    | none => some line
    | some name => memcpy line 0 name name.length

/-- The names that `list_prefix` looks through: functions and then variables. -/
def listed (symbols : Symbols) : List (List UInt8) :=
  (symbols.syscall_table.filter fun (name, _) => !([chr '_', chr '_'].isPrefixOf name)).map (·.1) ++
    (symbols.syscall_list.map (·.1) ++
      (symbols.sysvar_table.map (·.1) ++ symbols.sysvar_list.map (·.1)))

/-- `list_prefix` of `cmd.c`. -/
def list_prefix (w : World) (line : List UInt8) : Option (List UInt8) := do
  let s ← cstrAt line 0
  if s = [] then some line
  else
    match matching (listed w.symbols) s with
    | none => some line
    | some name => memcpy line 0 name name.length

def shell_auto_complete (w : World) (line : List UInt8) : Option (List UInt8) :=
  if w.msh_is_used then msh_auto_complete w line else list_prefix w line

/-! ### The loop of the thread -/

/-- `enum input_stat`. -/
inductive InputStat
  | WAIT_NORMAL
  | WAIT_SPEC_KEY
  | WAIT_FUNC_KEY
  deriving DecidableEq, Repr

/-- `struct finsh_shell`; the counters are of 16 bits. -/
structure FinshShell where
  stat : InputStat
  current_history : Nat
  history_count : Nat
  cmd_history : List (List UInt8)
  line : List UInt8
  line_position : Nat
  line_curpos : Nat
  deriving DecidableEq, Repr

/-- `rt_calloc` -/
def FinshShell.zero : FinshShell where
  stat := .WAIT_NORMAL
  current_history := 0
  history_count := 0
  cmd_history := List.replicate FINSH_HISTORY_LINES (List.replicate FINSH_CMD_SIZE 0)
  line := List.replicate (FINSH_CMD_SIZE + 1) 0
  line_position := 0
  line_curpos := 0

def incr (n : Nat) : Nat := (n + 1) % 65536

def decr (n : Nat) : Nat := (n + 65535) % 65536

/-- `cmd_history[index]` with a line of `n` characters. -/
def setHistory (rows : List (List UInt8)) (index : Nat) (line : List UInt8) (n : Nat) :
    Option (List (List UInt8)) := do
  let row ← memcpy (List.replicate FINSH_CMD_SIZE 0) 0 line n
  if index < rows.length then some (rows.set index row) else none

/-- `for (index = 0; index < FINSH_HISTORY_LINES - 1; index ++)`, with `n` turns to go. -/
def moveHistory (rows : List (List UInt8)) : Nat → Option (List (List UInt8))
  | 0 => some rows
  | n + 1 => do
    let index := FINSH_HISTORY_LINES - 1 - (n + 1)
    let row ← rows[index + 1]?
    moveHistory (rows.set index row) n

/-- Whether there is no last command or the line is another one. -/
def differs (sh : FinshShell) : Option Bool :=
  if sh.history_count = 0 then some true
  else do
    let last ← sh.cmd_history[sh.history_count - 1]?
    memcmp last sh.line FINSH_CMD_SIZE

def shell_push_history (sh : FinshShell) : Option FinshShell := do
  let sh ←
    if sh.line_position ≠ 0 then
      if FINSH_HISTORY_LINES ≤ sh.history_count then do
        let last ← sh.cmd_history[FINSH_HISTORY_LINES - 1]?
        if ← memcmp last sh.line FINSH_CMD_SIZE then do
          let rows ← moveHistory sh.cmd_history (FINSH_HISTORY_LINES - 1)
          let rows ← setHistory rows (FINSH_HISTORY_LINES - 1) sh.line sh.line_position
          some { sh with cmd_history := rows, history_count := FINSH_HISTORY_LINES }
        else some sh
      else do
        if ← differs sh then do
          let rows ← setHistory sh.cmd_history sh.history_count sh.line sh.line_position
          some { sh with
            current_history := sh.history_count
            cmd_history := rows
            history_count := incr sh.history_count }
        else some sh
    else some sh
  some { sh with current_history := sh.history_count }

/-- The history command at `current_history` in the line. -/
def copyHistory (sh : FinshShell) : Option FinshShell := do
  let row ← sh.cmd_history[sh.current_history]?
  let line ← memcpy sh.line 0 row FINSH_CMD_SIZE
  let s ← cstrAt line 0
  some { sh with line := line, line_curpos := s.length, line_position := s.length }

def upKey (sh : FinshShell) : Option FinshShell :=
  if 0 < sh.current_history then copyHistory { sh with current_history := sh.current_history - 1 }
  else some { sh with current_history := 0 }

/-- The comparison is one of `int`s. -/
def downKey (sh : FinshShell) : Option FinshShell :=
  if (sh.current_history : Int) < sh.history_count - 1 then
    copyHistory { sh with current_history := sh.current_history + 1 }
  else if sh.history_count ≠ 0 then
    copyHistory { sh with current_history := sh.history_count - 1 }
  else some sh

def leftKey (sh : FinshShell) : FinshShell :=
  if sh.line_curpos ≠ 0 then { sh with line_curpos := sh.line_curpos - 1 } else sh

def rightKey (sh : FinshShell) : FinshShell :=
  if sh.line_curpos < sh.line_position then { sh with line_curpos := incr sh.line_curpos } else sh

def tabKey (w : World) (sh : FinshShell) : Option FinshShell := do
  let line ← shell_auto_complete w sh.line
  let s ← cstrAt line 0
  some { sh with line := line, line_curpos := s.length, line_position := s.length }

/-- The characters from `curpos` on one place to the left, with a `NUL` behind them. -/
def deleteByte (line : List UInt8) (curpos position : Nat) : Option (List UInt8) := do
  let line ←
    if curpos < position then memmove line curpos (curpos + 1) (position - curpos) else some line
  write line position 0

def backspaceKey (sh : FinshShell) : Option FinshShell :=
  if sh.line_curpos = 0 then some sh
  else do
    let sh := { sh with line_position := decr sh.line_position, line_curpos := sh.line_curpos - 1 }
    let line ← deleteByte sh.line sh.line_curpos sh.line_position
    some { sh with line := line }

/-- The line is run: by `msh_exec`, or with a `;` behind it by `finsh_run_line`. -/
def runLine (w : World) (line : List UInt8) (position : Nat) : Option Exec :=
  if w.msh_is_used then msh_exec w line position
  else do
    let line ← write line position (chr ';')
    if position ≠ 0 then (cstrAt line 0).map .run_line else some .nothing

def enterKey (w : World) (sh : FinshShell) : Option (FinshShell × Exec) := do
  let sh ← shell_push_history sh
  let ret ← runLine w sh.line sh.line_position
  some ({ sh with
    line := List.replicate (FINSH_CMD_SIZE + 1) 0, line_curpos := 0, line_position := 0 }, ret)

/-- A character at `curpos`, with those from there on one place to the right. -/
def insertByte (line : List UInt8) (curpos position : Nat) (ch : UInt8) : Option (List UInt8) :=
  if curpos < position then do
    let line ← memmove line (curpos + 1) curpos (position - curpos)
    write line curpos ch
  else write line position ch

def normalKey (sh : FinshShell) (ch : UInt8) : Option FinshShell := do
  -- it's a large line, discard it
  let sh := if FINSH_CMD_SIZE ≤ sh.line_position then { sh with line_position := 0 } else sh
  let line ← insertByte sh.line sh.line_curpos sh.line_position ch
  let sh :=
    { sh with
      line := line, line_position := incr sh.line_position, line_curpos := incr sh.line_curpos }
  -- clear command line
  some (if FINSH_CMD_SIZE ≤ sh.line_position then { sh with line_position := 0, line_curpos := 0 }
    else sh)

/-- What follows the control keys in the loop. -/
def plainKey (w : World) (sh : FinshShell) (ch : UInt8) : Option (FinshShell × Option Exec) :=
  if ch = 0 ∨ ch = 0xFF then some (sh, none)
  else if ch = chr '\t' then (tabKey w sh).map (·, none)
  else if ch = 0x7f ∨ ch = 0x08 then (backspaceKey sh).map (·, none)
  else if ch = chr '\r' ∨ ch = chr '\n' then (enterKey w sh).map fun (sh, ret) => (sh, some ret)
  else (normalKey sh ch).map (·, none)

/-- One turn of the loop, with the byte of `finsh_getchar`. -/
def turn (w : World) (sh : FinshShell) (ch : UInt8) : Option (FinshShell × Option Exec) :=
  if ch = 0x1b then some ({ sh with stat := .WAIT_SPEC_KEY }, none)
  else
    match sh.stat with
    | .WAIT_SPEC_KEY =>
      if ch = 0x5b then some ({ sh with stat := .WAIT_FUNC_KEY }, none)
      else plainKey w { sh with stat := .WAIT_NORMAL } ch
    | .WAIT_FUNC_KEY =>
      let sh := { sh with stat := .WAIT_NORMAL }
      if ch = 0x41 then (upKey sh).map (·, none)
      else if ch = 0x42 then (downKey sh).map (·, none)
      else if ch = 0x44 then some (leftKey sh, none)
      else if ch = 0x43 then some (rightKey sh, none)
      else plainKey w sh ch
    | .WAIT_NORMAL => plainKey w sh ch

/-- `finsh_thread_entry`: the turns for some bytes, and what the lines came to. -/
def finsh_thread_entry (sh : FinshShell) : List (World × UInt8) → Option (FinshShell × List Exec)
  | [] => some (sh, [])
  | (w, ch) :: input => do
    let (sh, ret) ← turn w sh ch
    let (sh, rets) ← finsh_thread_entry sh input
    some (sh, ret.toList ++ rets)

end Ab32Vg1.Finsh.Shell
