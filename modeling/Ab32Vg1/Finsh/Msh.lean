import Ab32Vg1.Finsh.Token

/-! `msh.c`: a command line is split in place.  The buffer holds the line and its `NUL`; an access
behind it gives `none`. -/

namespace Ab32Vg1.Finsh.Msh

def FINSH_ARG_MAX : Nat := 10

def isBlank (c : UInt8) : Bool := c == chr ' ' || c == chr '\t'

/-- `while ((*ptr == ' ' || *ptr == '\t') && position < length)`, with `NUL` over each blank. -/
def stripBlanks (length : Nat) (cmd : List UInt8) (position : Nat) : Option (List UInt8 × Nat) :=
  match cmd[position]? with
  | none => none
  | some c =>
    if h : isBlank c = true ∧ position < length then
      stripBlanks length (cmd.set position 0) (position + 1)
    else some (cmd, position)
termination_by length - position

/-- `while (*ptr != '"' && position < length)`; a backslash and a quote are passed together. -/
def skipString (length : Nat) (cmd : List UInt8) (position : Nat) : Option Nat :=
  match cmd[position]? with
  | none => none
  | some c =>
    if h : c ≠ chr '"' ∧ position < length then
      if c = chr '\\' then
        match cmd[position + 1]? with
        | none => none
        | some next =>
          if next = chr '"' then skipString length cmd (position + 2)
          else skipString length cmd (position + 1)
      else skipString length cmd (position + 1)
    else some position
termination_by length - position

/-- `while ((*ptr != ' ' && *ptr != '\t') && position < length)` -/
def skipWord (length : Nat) (cmd : List UInt8) (position : Nat) : Option Nat :=
  match cmd[position]? with
  | none => none
  | some c =>
    if h : isBlank c = false ∧ position < length then skipWord length cmd (position + 1)
    else some position
termination_by length - position

/-- The string at a pointer into the buffer. -/
def cstrAt (cmd : List UInt8) (i : Nat) : Option (List UInt8) :=
  if 0 ∈ cmd.drop i then some ((cmd.drop i).takeWhile (· ≠ 0)) else none

/-- What is left: the buffer, the pointers of `argv`, and the arguments that are printed when there
are too many. -/
structure Split where
  cmd : List UInt8
  argv : List Nat
  printed : List (List UInt8)
  deriving DecidableEq, Repr

/-- How a turn of the loop ends. -/
inductive Turn
  | next (cmd : List UInt8) (position : Nat) (argv : List Nat)
  | stop (r : Split)

/-- The rest of a turn, at the first character of an argument. -/
def argTurn (length : Nat) (cmd : List UInt8) (position : Nat) (argv : List Nat) : Option Turn := do
  let c ← cmd[position]?
  if c = chr '"' then
    let argv := argv ++ [position + 1]
    let position ← skipString length cmd (position + 1)
    if length ≤ position then some (.stop ⟨cmd, argv, []⟩)
    else some (.next (cmd.set position 0) (position + 1) argv)
  else
    let argv := argv ++ [position]
    let position ← skipWord length cmd position
    if length ≤ position then some (.stop ⟨cmd, argv, []⟩)
    else some (.next cmd position argv)

def turn (length : Nat) (cmd : List UInt8) (position : Nat) (argv : List Nat) : Option Turn := do
  let r ← stripBlanks length cmd position
  if FINSH_ARG_MAX ≤ argv.length then
    let printed ← argv.mapM (cstrAt r.1)
    some (.stop ⟨r.1, argv, printed⟩)
  else if length ≤ r.2 then some (.stop ⟨r.1, argv, []⟩)
  else argTurn length r.1 r.2 argv

/-! ### One read at a time -/

section Steps

variable {length : Nat} {cmd done rest w : List UInt8} {position : Nat} {c : UInt8}

theorem stripBlanks_le {r : List UInt8 × Nat} (h : stripBlanks length cmd position = some r) :
    position ≤ r.2 ∧ (r.2 < length → ∃ c, r.1[r.2]? = some c ∧ isBlank c = false) := by
  fun_induction stripBlanks length cmd position with
  | case1 => cases h
  | case2 cmd position c hc hblank ih =>
    obtain ⟨hle, hnext⟩ := ih h
    exact ⟨by omega, hnext⟩
  | case3 cmd position c hc hstop =>
    obtain rfl := Option.some.inj h
    refine ⟨le_refl _, fun hlt => ⟨c, hc, ?_⟩⟩
    simpa [hlt] using hstop

theorem skipString_le {position' : Nat} (h : skipString length cmd position = some position') :
    position ≤ position' := by
  fun_induction skipString length cmd position with
  | case1 => cases h
  | case2 => cases h
  | case3 _ _ _ _ ih | case4 _ _ _ _ _ _ ih | case5 _ _ _ _ _ ih =>
    have hle := ih h
    omega
  | case6 => exact (Option.some.inj h).le

theorem skipWord_le {position' : Nat} (h : skipWord length cmd position = some position') :
    position ≤ position' := by
  fun_induction skipWord length cmd position with
  | case1 => cases h
  | case2 position c hc hword ih =>
    have hle := ih h
    omega
  | case3 => exact (Option.some.inj h).le

/-- A word has a character. -/
theorem skipWord_lt {position' : Nat} (h : skipWord length cmd position = some position')
    (hc : cmd[position]? = some c) (hblank : isBlank c = false) (hlt : position < length) :
    position < position' := by
  rw [skipWord] at h
  simp only [hc] at h
  rw [dif_pos ⟨hblank, hlt⟩] at h
  exact skipWord_le h

theorem argTurn_moves {cmd' : List UInt8} {position' : Nat} {argv argv' : List Nat}
    (hc : cmd[position]? = some c) (hblank : isBlank c = false) (hlt : position < length)
    (h : argTurn length cmd position argv = some (.next cmd' position' argv')) :
    position < position' := by
  simp only [argTurn, hc, Option.bind_eq_bind, Option.bind_some] at h
  split at h
  · obtain ⟨position₁, hskip, h⟩ := Option.bind_eq_some_iff.mp h
    have hle := skipString_le hskip
    split at h
    · cases h
    · cases h
      omega
  · obtain ⟨position₁, hskip, h⟩ := Option.bind_eq_some_iff.mp h
    have hmoves := skipWord_lt hskip hc hblank hlt
    split at h
    · cases h
    · cases h
      exact hmoves

theorem turn_moves {cmd' : List UInt8} {position' : Nat} {argv argv' : List Nat}
    (h : turn length cmd position argv = some (.next cmd' position' argv')) :
    position < position' := by
  obtain ⟨r, hstrip, h⟩ := Option.bind_eq_some_iff.mp h
  obtain ⟨hle, hnext⟩ := stripBlanks_le hstrip
  split at h
  · obtain ⟨printed, -, h⟩ := Option.bind_eq_some_iff.mp h
    cases h
  split at h
  · cases h
  next hlt =>
    obtain ⟨c, hc, hblank⟩ := hnext (by omega)
    have hmoves := argTurn_moves hc hblank (by omega) h
    omega

end Steps

/-- `while (position < length)` -/
def splitLoop (length : Nat) (cmd : List UInt8) (position : Nat) (argv : List Nat) : Option Split :=
  if _hlt : position < length then
    match _hturn : turn length cmd position argv with
    | none => none
    | some (.stop r) => some r
    | some (.next cmd' position' argv') => splitLoop length cmd' position' argv'
  else some ⟨cmd, argv, []⟩
termination_by length - position
decreasing_by
  have hmoves := turn_moves _hturn
  omega

def msh_split (cmd : List UInt8) (length : Nat) : Option Split := splitLoop length cmd 0 []

/-! ### Every access is inside -/

/-- A buffer of a line of `length` characters. -/
structure Framed (length : Nat) (cmd : List UInt8) : Prop where
  size : cmd.length = length + 1
  nul : cmd[length]? = some 0

section Safe

variable {length : Nat} {cmd : List UInt8} {position : Nat} {argv : List Nat}

theorem Framed.read (h : Framed length cmd) (hle : position ≤ length) :
    ∃ c, cmd[position]? = some c := by
  have hsize := h.size
  exact ⟨_, List.getElem?_eq_getElem (by omega)⟩

/-- A `NUL` over a character of the line. -/
theorem Framed.set (h : Framed length cmd) (hlt : position < length) :
    Framed length (cmd.set position 0) where
  size := by rw [List.length_set, h.size]
  nul := by rw [List.getElem?_set_ne (by omega), h.nul]

/-- The `NUL` of the line ends every string. -/
theorem Framed.cstrAt (h : Framed length cmd) (hle : position ≤ length) :
    ∃ t, cstrAt cmd position = some t := by
  have hmem : (0 : UInt8) ∈ cmd.drop position := by
    refine List.mem_of_getElem? (i := length - position) ?_
    rw [List.getElem?_drop, Nat.add_sub_cancel' hle, h.nul]
  exact ⟨_, if_pos hmem⟩

theorem stripBlanks_safe (h : Framed length cmd) (hle : position ≤ length) :
    ∃ cmd' position', stripBlanks length cmd position = some (cmd', position') ∧
      Framed length cmd' ∧ position' ≤ length := by
  fun_induction stripBlanks length cmd position with
  | case1 cmd position hnone =>
    obtain ⟨c, hc⟩ := h.read hle
    rw [hnone] at hc
    cases hc
  | case2 cmd position c hc hblank ih => exact ih (h.set hblank.2) hblank.2
  | case3 cmd position c hc hstop => exact ⟨cmd, position, rfl, h, hle⟩

/-- The two characters of an escape are both before the `NUL`. -/
theorem skipString_safe (h : Framed length cmd) (hle : position ≤ length) :
    ∃ position', skipString length cmd position = some position' ∧ position' ≤ length := by
  fun_induction skipString length cmd position with
  | case1 position hnone =>
    obtain ⟨c, hc⟩ := h.read hle
    rw [hnone] at hc
    cases hc
  | case2 position hnone _ hcond =>
    obtain ⟨c, hc⟩ := h.read (hcond.2 : position + 1 ≤ length)
    rw [hnone] at hc
    cases hc
  | case3 position hc hcond hnext ih =>
    refine ih ?_
    by_contra hgt
    obtain rfl : length = position + 1 := by omega
    rw [h.nul] at hnext
    revert hnext
    decide
  | case4 position hc next hnext hquote hcond ih => exact ih hcond.2
  | case5 position c hc hcond hplain ih => exact ih hcond.2
  | case6 position c hc hstop => exact ⟨position, rfl, hle⟩

theorem skipWord_safe (h : Framed length cmd) (hle : position ≤ length) :
    ∃ position', skipWord length cmd position = some position' ∧ position' ≤ length := by
  fun_induction skipWord length cmd position with
  | case1 position hnone =>
    obtain ⟨c, hc⟩ := h.read hle
    rw [hnone] at hc
    cases hc
  | case2 position c hc hword ih => exact ih hword.2
  | case3 position c hc hstop => exact ⟨position, rfl, hle⟩

/-- The pointers stay in the buffer, and there are not too many. -/
structure Pointers (length : Nat) (argv : List Nat) : Prop where
  le : ∀ p ∈ argv, p ≤ length
  count : argv.length ≤ FINSH_ARG_MAX

theorem Pointers.push {p : Nat} (h : Pointers length argv) (hp : p ≤ length)
    (hcount : argv.length < FINSH_ARG_MAX) : Pointers length (argv ++ [p]) where
  le q hq := by
    rcases List.mem_append.mp hq with hq | hq
    · exact h.le q hq
    · rwa [List.mem_singleton.mp hq]
  count := by
    rw [List.length_append, List.length_singleton]
    exact hcount

/-- The arguments that are printed can be read. -/
theorem Framed.print (h : Framed length cmd) (hle : ∀ p ∈ argv, p ≤ length) :
    ∃ printed, argv.mapM (Msh.cstrAt cmd) = some printed := by
  induction argv with
  | nil => exact ⟨[], rfl⟩
  | cons p argv ih =>
    obtain ⟨t, ht⟩ := h.cstrAt (hle p (List.mem_cons_self ..))
    obtain ⟨printed, hprinted⟩ := ih fun q hq => hle q (List.mem_cons_of_mem _ hq)
    exact ⟨t :: printed, by simp [List.mapM_cons, ht, hprinted]⟩

/-- A turn ends, and leaves the buffer and the pointers as they have to be. -/
def TurnSafe (length : Nat) (t : Option Turn) : Prop :=
  (∃ r, t = some (.stop r) ∧ Pointers length r.argv) ∨
    ∃ cmd position argv, t = some (.next cmd position argv) ∧
      Framed length cmd ∧ position ≤ length ∧ Pointers length argv

theorem argTurn_safe (h : Framed length cmd) (hlt : position < length)
    (hargv : Pointers length argv) (hcount : argv.length < FINSH_ARG_MAX) :
    TurnSafe length (argTurn length cmd position argv) := by
  obtain ⟨c, hc⟩ := h.read hlt.le
  simp only [argTurn, hc, Option.bind_eq_bind, Option.bind_some]
  by_cases hquote : c = chr '"'
  · obtain ⟨position₁, hskip, hle₁⟩ := skipString_safe h (hlt : position + 1 ≤ length)
    have hpush : Pointers length (argv ++ [position + 1]) := hargv.push hlt hcount
    rw [if_pos hquote, hskip, Option.bind_some]
    by_cases hopen : length ≤ position₁
    · rw [if_pos hopen]
      exact .inl ⟨_, rfl, hpush⟩
    · rw [if_neg hopen]
      exact .inr ⟨_, _, _, rfl, h.set (by omega), by omega, hpush⟩
  · obtain ⟨position₁, hskip, hle₁⟩ := skipWord_safe h hlt.le
    have hpush : Pointers length (argv ++ [position]) := hargv.push hlt.le hcount
    rw [if_neg hquote, hskip, Option.bind_some]
    by_cases hlast : length ≤ position₁
    · rw [if_pos hlast]
      exact .inl ⟨_, rfl, hpush⟩
    · rw [if_neg hlast]
      exact .inr ⟨_, _, _, rfl, h, hle₁, hpush⟩

theorem turn_safe (h : Framed length cmd) (hle : position ≤ length) (hargv : Pointers length argv) :
    TurnSafe length (turn length cmd position argv) := by
  obtain ⟨cmd₁, position₁, hstrip, h₁, hle₁⟩ := stripBlanks_safe h hle
  simp only [turn, hstrip, Option.bind_eq_bind, Option.bind_some]
  by_cases hmax : FINSH_ARG_MAX ≤ argv.length
  · obtain ⟨printed, hprinted⟩ := h₁.print hargv.le
    rw [if_pos hmax, hprinted, Option.bind_some]
    exact .inl ⟨_, rfl, hargv⟩
  · rw [if_neg hmax]
    by_cases hend : length ≤ position₁
    · rw [if_pos hend]
      exact .inl ⟨_, rfl, hargv⟩
    · rw [if_neg hend]
      exact argTurn_safe h₁ (by omega) hargv (by omega)

theorem splitLoop_safe (h : Framed length cmd) (hle : position ≤ length)
    (hargv : Pointers length argv) :
    ∃ r, splitLoop length cmd position argv = some r ∧ Pointers length r.argv := by
  fun_induction splitLoop length cmd position argv with
  | case1 cmd position argv hlt hturn =>
    rcases turn_safe h hle hargv with ⟨r, hr, -⟩ | ⟨_, _, _, hr, -⟩ <;>
      · rw [hturn] at hr
        cases hr
  | case2 cmd position argv hlt r hturn =>
    rcases turn_safe h hle hargv with ⟨r', hr, hr'⟩ | ⟨_, _, _, hr, -⟩
    · rw [hturn] at hr
      cases hr
      exact ⟨r, rfl, hr'⟩
    · rw [hturn] at hr
      cases hr
  | case3 cmd position argv hlt cmd' position' argv' hturn ih =>
    rcases turn_safe h hle hargv with ⟨r', hr, -⟩ | ⟨_, _, _, hr, h', hle', hargv'⟩
    · rw [hturn] at hr
      cases hr
    · rw [hturn] at hr
      cases hr
      exact ih h' hle' hargv'
  | case4 cmd position argv hend => exact ⟨_, rfl, hargv⟩

end Safe

/-! ### Splitting what was joined -/

/-- An argument as it is typed: in quotes, or without them when it has no blanks. -/
structure Arg where
  value : List UInt8
  quoted : Bool
  nonempty : value ≠ []
  plain : ∀ c ∈ value, c ≠ chr '"' ∧ c ≠ chr '\\' ∧ c ≠ 0
  blank : quoted = false → ∀ c ∈ value, isBlank c = false

namespace Arg

def written (a : Arg) : List UInt8 := if a.quoted then chr '"' :: (a.value ++ [chr '"']) else a.value

/-- What the buffer holds in the place of the argument afterwards. -/
def kept (a : Arg) : List UInt8 := if a.quoted then chr '"' :: (a.value ++ [0]) else a.value

/-- Where the value begins in it. -/
def skip (a : Arg) : Nat := if a.quoted then 1 else 0

/-- An argument does not begin with a blank. -/
theorem written_cons (a : Arg) : ∃ c w, a.written = c :: w ∧ isBlank c = false := by
  cases hquoted : a.quoted with
  | true => exact ⟨chr '"', a.value ++ [chr '"'], by simp [written, hquoted], by decide⟩
  | false =>
    obtain ⟨c, w, hvalue⟩ := List.exists_cons_of_ne_nil a.nonempty
    refine ⟨c, w, by simp [written, hquoted, hvalue], a.blank hquoted c ?_⟩
    rw [hvalue]
    exact List.mem_cons_self ..

theorem kept_length (a : Arg) : a.kept.length = a.written.length := by
  rw [kept, written]
  split_ifs <;> simp

end Arg

/-- A run of blanks and tabs. -/
structure Blanks where
  chars : List UInt8
  nonempty : chars ≠ []
  blank : ∀ c ∈ chars, isBlank c = true

/-- The lines that join the arguments with runs of blanks. -/
inductive Joined : List Arg → List UInt8 → Prop
  | nil : Joined [] []
  | one (a : Arg) : Joined [a] a.written
  | cons (a : Arg) (run : Blanks) {b : Arg} {args : List Arg} {text : List UInt8} :
      Joined (b :: args) text → Joined (a :: b :: args) (a.written ++ (run.chars ++ text))

section Join

variable {length : Nat} {done lead w rest : List UInt8} {c : UInt8} {argv : List Nat}

theorem read_append (done rest : List UInt8) (c : UInt8) :
    (done ++ c :: rest)[done.length]? = some c := by
  rw [List.getElem?_append_right (le_refl _), Nat.sub_self, List.getElem?_cons_zero]

theorem write_append (done rest : List UInt8) (c x : UInt8) :
    (done ++ c :: rest).set done.length x = done ++ x :: rest := by
  rw [List.set_append_right _ _ (le_refl _), Nat.sub_self, List.set_cons_zero]

theorem stripBlanks_append (done rest : List UInt8) (hlead : ∀ b ∈ lead, isBlank b = true) (hc : isBlank c = false)
    (hle : done.length + lead.length ≤ length) :
    stripBlanks length (done ++ (lead ++ c :: rest)) done.length =
      some (done ++ (List.replicate lead.length 0 ++ c :: rest), done.length + lead.length) := by
  induction lead generalizing done with
  | nil =>
    have hread := read_append done rest c
    rw [stripBlanks]
    simp only [List.nil_append, hread, hc]
    simp
  | cons b lead ih =>
    have hread := read_append done (lead ++ c :: rest) b
    have hb := hlead b (List.mem_cons_self ..)
    rw [List.length_cons] at hle
    have hlt : done.length < length := by omega
    have hrest := ih (done ++ [0]) (fun x hx => hlead x (List.mem_cons_of_mem _ hx))
      (by rw [List.length_append, List.length_singleton]; omega)
    rw [List.length_append, List.length_singleton, List.append_assoc, List.append_assoc] at hrest
    rw [stripBlanks]
    simp only [List.cons_append, hread]
    rw [dif_pos ⟨hb, hlt⟩, write_append]
    simpa [List.replicate_succ, Nat.add_assoc, Nat.add_comm 1] using hrest

theorem skipWord_append (done rest : List UInt8) (hw : ∀ x ∈ w, isBlank x = false)
    (hend : isBlank c = true ∨ done.length + w.length = length)
    (hle : done.length + w.length ≤ length) :
    skipWord length (done ++ (w ++ c :: rest)) done.length = some (done.length + w.length) := by
  induction w generalizing done with
  | nil =>
    have hread := read_append done rest c
    have hstop : ¬(isBlank c = false ∧ done.length < length) := by
      rintro ⟨hblank, hlt⟩
      rcases hend with hc | hend
      · rw [hc] at hblank
        cases hblank
      · rw [List.length_nil] at hend
        omega
    rw [skipWord]
    simp only [List.nil_append, hread]
    rw [dif_neg hstop, List.length_nil, Nat.add_zero]
  | cons x w ih =>
    have hread := read_append done (w ++ c :: rest) x
    rw [List.length_cons] at hend hle
    have hrest := ih (done ++ [x]) (fun y hy => hw y (List.mem_cons_of_mem _ hy))
      (hend.imp_right fun h => by rw [List.length_append, List.length_singleton]; omega)
      (by rw [List.length_append, List.length_singleton]; omega)
    rw [List.length_append, List.length_singleton, List.append_assoc] at hrest
    rw [skipWord]
    simp only [List.cons_append, hread]
    rw [dif_pos ⟨hw x (List.mem_cons_self ..), by omega⟩]
    simpa [Nat.add_assoc, Nat.add_comm 1] using hrest

theorem skipString_append (done rest : List UInt8)
    (hw : ∀ x ∈ w, x ≠ chr '"' ∧ x ≠ chr '\\' ∧ x ≠ 0)
    (hle : done.length + w.length ≤ length) :
    skipString length (done ++ (w ++ chr '"' :: rest)) done.length =
      some (done.length + w.length) := by
  induction w generalizing done with
  | nil =>
    have hread := read_append done rest (chr '"')
    rw [skipString]
    simp only [List.nil_append, hread]
    rw [dif_neg fun h => h.1 rfl, List.length_nil, Nat.add_zero]
  | cons x w ih =>
    have hread := read_append done (w ++ chr '"' :: rest) x
    rw [List.length_cons] at hle
    obtain ⟨hquote, hslash, -⟩ := hw x (List.mem_cons_self ..)
    have hrest := ih (done ++ [x]) (fun y hy => hw y (List.mem_cons_of_mem _ hy))
      (by rw [List.length_append, List.length_singleton]; omega)
    rw [List.length_append, List.length_singleton, List.append_assoc] at hrest
    rw [skipString]
    simp only [List.cons_append, hread]
    rw [dif_pos ⟨hquote, by omega⟩, if_neg hslash]
    simpa [Nat.add_assoc, Nat.add_comm 1] using hrest

theorem cstrAt_append (done rest : List UInt8) (hw : ∀ x ∈ w, x ≠ chr '"' ∧ x ≠ chr '\\' ∧ x ≠ 0) :
    cstrAt (done ++ (w ++ 0 :: rest)) done.length = some w := by
  have hdrop : (done ++ (w ++ 0 :: rest)).drop done.length = w ++ 0 :: rest := List.drop_left
  have htake : (w ++ 0 :: rest).takeWhile (· ≠ 0) = w := by
    rw [List.takeWhile_append_of_pos fun x hx => decide_eq_true (hw x hx).2.2,
      List.takeWhile_cons_of_neg (by decide), List.append_nil]
  rw [cstrAt, hdrop, if_pos (by simp), htake]

theorem splitLoop_next {cmd cmd' : List UInt8} {position position' : Nat} {argv' : List Nat}
    (hlt : position < length)
    (h : turn length cmd position argv = some (.next cmd' position' argv')) :
    splitLoop length cmd position argv = splitLoop length cmd' position' argv' := by
  rw [splitLoop, dif_pos hlt]
  split <;> simp_all

theorem splitLoop_stop {cmd : List UInt8} {position : Nat} {r : Split} (hlt : position < length)
    (h : turn length cmd position argv = some (.stop r)) :
    splitLoop length cmd position argv = some r := by
  rw [splitLoop, dif_pos hlt]
  split <;> simp_all

theorem splitLoop_end {cmd : List UInt8} {position : Nat} (h : length ≤ position) :
    splitLoop length cmd position argv = some ⟨cmd, argv, []⟩ := by
  rw [splitLoop, dif_neg (Nat.not_lt.mpr h)]

theorem argTurn_string (rest : List UInt8) (argv : List Nat)
    (hw : ∀ x ∈ w, x ≠ chr '"' ∧ x ≠ chr '\\' ∧ x ≠ 0)
    (hle : done.length + (w.length + 2) ≤ length) :
    argTurn length (done ++ chr '"' :: (w ++ chr '"' :: rest)) done.length argv =
      some (.next (done ++ chr '"' :: (w ++ 0 :: rest)) (done.length + (w.length + 2))
        (argv ++ [done.length + 1])) := by
  have hread := read_append done (w ++ chr '"' :: rest) (chr '"')
  have hinside : (done ++ [chr '"']).length + w.length ≤ length := by
    rw [List.length_append, List.length_singleton]
    omega
  have hskip := skipString_append (done ++ [chr '"']) rest hw hinside
  have hwrite := write_append (done ++ chr '"' :: w) rest (chr '"') 0
  have hlen : (done ++ chr '"' :: w).length = done.length + 1 + w.length := by
    rw [List.length_append, List.length_cons]
    omega
  rw [List.append_assoc, List.length_append, List.length_singleton, List.singleton_append] at hskip
  rw [hlen, List.append_assoc, List.append_assoc, List.cons_append, List.cons_append] at hwrite
  have hin : ¬length ≤ done.length + 1 + w.length := by omega
  have hnext : done.length + 1 + w.length + 1 = done.length + (w.length + 2) := by omega
  simp only [argTurn, hread, hskip, Option.bind_eq_bind, Option.bind_some, if_true]
  rw [if_neg hin, hwrite, hnext]

theorem argTurn_word (hne : w ≠ []) (hw : ∀ x ∈ w, isBlank x = false)
    (hquote : ∀ x ∈ w, x ≠ chr '"')
    (hend : isBlank c = true ∨ done.length + w.length = length)
    (hle : done.length + w.length ≤ length) :
    argTurn length (done ++ (w ++ c :: rest)) done.length argv =
      some (if length ≤ done.length + w.length
        then .stop ⟨done ++ (w ++ c :: rest), argv ++ [done.length], []⟩
        else .next (done ++ (w ++ c :: rest)) (done.length + w.length) (argv ++ [done.length])) := by
  have hskip := skipWord_append done rest hw hend hle
  obtain ⟨x, w, rfl⟩ := List.exists_cons_of_ne_nil hne
  have hread := read_append done (w ++ c :: rest) x
  rw [List.cons_append] at hskip ⊢
  simp only [argTurn, hread, hskip, Option.bind_eq_bind, Option.bind_some]
  rw [if_neg (hquote x (List.mem_cons_self ..))]
  split_ifs <;> rfl

/-- One argument, once the blanks before it are gone: the loop goes on behind it. -/
theorem splitLoop_stripped (a : Arg) {cmd : List UInt8} {position : Nat} (hlt : position < length)
    (hstrip : stripBlanks length cmd position =
      some (done ++ (a.written ++ c :: rest), done.length))
    (hcount : argv.length < FINSH_ARG_MAX) (hle : done.length + a.written.length ≤ length)
    (hend : isBlank c = true ∨ done.length + a.written.length = length) :
    splitLoop length cmd position argv =
      splitLoop length (done ++ (a.kept ++ c :: rest)) (done.length + a.written.length)
        (argv ++ [done.length + a.skip]) := by
  have hpos := List.length_pos_iff.mpr a.nonempty
  have hturn (h : 0 < a.written.length) : turn length cmd position argv =
      argTurn length (done ++ (a.written ++ c :: rest)) done.length argv := by
    simp only [turn, hstrip, Option.bind_eq_bind, Option.bind_some]
    rw [if_neg (Nat.not_le.mpr hcount), if_neg (by omega)]
  cases hquoted : a.quoted with
  | true =>
    have hlen : a.written.length = a.value.length + 2 := by
      simp [Arg.written, hquoted]
    have hstring := argTurn_string (c :: rest) argv a.plain (hlen ▸ hle)
    refine splitLoop_next hlt ((hturn (by omega)).trans ?_)
    rw [hlen]
    simpa [Arg.written, Arg.kept, Arg.skip, hquoted] using hstring
  | false =>
    have hwritten : a.written = a.value := by simp [Arg.written, hquoted]
    have hkept : a.kept = a.value := by simp [Arg.kept, hquoted]
    have hskip : a.skip = 0 := by simp [Arg.skip, hquoted]
    have hturn := hturn (hwritten ▸ hpos)
    rw [hwritten] at hturn hle hend ⊢
    rw [hkept, hskip, Nat.add_zero]
    rw [argTurn_word a.nonempty (a.blank hquoted) (fun x hx => (a.plain x hx).1) hend hle] at hturn
    split_ifs at hturn with hlast
    · rw [splitLoop_stop hlt hturn, splitLoop_end hlast]
    · exact splitLoop_next hlt hturn

/-- One argument: the loop goes on behind it. -/
theorem splitLoop_arg (a : Arg) (c : UInt8) (done rest : List UInt8)
    (hlead : ∀ b ∈ lead, isBlank b = true)
    (hcount : argv.length < FINSH_ARG_MAX)
    (hle : done.length + lead.length + a.written.length ≤ length)
    (hend : isBlank c = true ∨ done.length + lead.length + a.written.length = length) :
    splitLoop length (done ++ (lead ++ (a.written ++ c :: rest))) done.length argv =
      splitLoop length (done ++ (List.replicate lead.length 0 ++ (a.kept ++ c :: rest)))
        (done.length + lead.length + a.written.length)
        (argv ++ [done.length + lead.length + a.skip]) := by
  obtain ⟨x, w, hx, hblank⟩ := a.written_cons
  have hlen : (done ++ List.replicate lead.length 0).length = done.length + lead.length := by
    rw [List.length_append, List.length_replicate]
  have hlead_le : done.length + lead.length ≤ length := by omega
  have hstrip := stripBlanks_append done (w ++ c :: rest) hlead hblank hlead_le
  rw [← List.cons_append, ← hx, ← hlen, ← List.append_assoc done (List.replicate _ _)] at hstrip
  have hpos : 0 < a.written.length := by rw [hx]; exact Nat.succ_pos _
  rw [← hlen, splitLoop_stripped a (by omega) hstrip hcount (hlen ▸ hle) (hlen ▸ hend),
    List.append_assoc]

/-- An argument can be read back once a `NUL` is behind it. -/
theorem cstrAt_kept (a : Arg) (done rest : List UInt8) :
    cstrAt (done ++ (a.kept ++ 0 :: rest)) (done.length + a.skip) = some a.value := by
  cases hquoted : a.quoted with
  | true =>
    have hread := cstrAt_append (done ++ [chr '"']) (0 :: rest) a.plain
    simpa [Arg.kept, Arg.skip, hquoted] using hread
  | false =>
    have hread := cstrAt_append done rest a.plain
    simpa [Arg.kept, Arg.skip, hquoted] using hread

/-- The line behind `done`, with the blanks before it: all arguments come out, and each of them is
found in the buffer. -/
theorem splitLoop_joined {args : List Arg} {text : List UInt8} (h : Joined args text)
    (hne : args ≠ []) (done lead : List UInt8) (argv : List Nat)
    (hlead : ∀ b ∈ lead, isBlank b = true) (hcount : argv.length + args.length ≤ FINSH_ARG_MAX)
    (hlen : length = done.length + lead.length + text.length) :
    ∃ tail offsets, splitLoop length (done ++ (lead ++ (text ++ [0]))) done.length argv =
        some ⟨done ++ (List.replicate lead.length 0 ++ tail), argv ++ offsets, []⟩ ∧
      offsets.map (cstrAt (done ++ (List.replicate lead.length 0 ++ tail))) =
        args.map fun a => some a.value := by
  induction h generalizing done lead argv with
  | nil => exact absurd rfl hne
  | one a =>
    have hargc : argv.length < FINSH_ARG_MAX := hcount
    have hsplit := splitLoop_arg a 0 done [] hlead hargc hlen.ge (.inr hlen.symm)
    have hread := cstrAt_kept a (done ++ List.replicate lead.length 0) []
    rw [List.length_append, List.length_replicate, List.append_assoc] at hread
    refine ⟨a.kept ++ [0], [done.length + lead.length + a.skip], ?_, ?_⟩
    · rw [hsplit, splitLoop_end hlen.le]
    · rw [List.map_singleton, List.map_singleton, hread]
  | @cons a run b args text hjoined ih =>
    obtain ⟨blank, blanks, hrun⟩ := List.exists_cons_of_ne_nil run.nonempty
    have hblank : isBlank blank = true := run.blank blank (hrun ▸ List.mem_cons_self ..)
    simp only [List.length_cons] at hcount
    rw [List.length_append, List.length_append] at hlen
    have hargc : argv.length < FINSH_ARG_MAX := by omega
    have hle : done.length + lead.length + a.written.length ≤ length := by omega
    have hsplit := splitLoop_arg a blank done (blanks ++ (text ++ [0])) hlead hargc hle (.inl hblank)
    -- the argument and what is before it are done
    have hdone : (done ++ (List.replicate lead.length 0 ++ a.kept)).length =
        done.length + lead.length + a.written.length := by
      simp [a.kept_length, Nat.add_assoc]
    obtain ⟨tail, offsets, hloop, hoffsets⟩ := ih (by simp)
      (done ++ (List.replicate lead.length 0 ++ a.kept)) run.chars
      (argv ++ [done.length + lead.length + a.skip]) run.blank
      (by simp only [List.length_append, List.length_cons, List.length_nil]; omega)
      (by rw [hdone]; omega)
    have hread := cstrAt_kept a (done ++ List.replicate lead.length 0)
      (List.replicate blanks.length 0 ++ tail)
    refine ⟨a.kept ++ (List.replicate run.chars.length 0 ++ tail),
      (done.length + lead.length + a.skip) :: offsets, ?_, ?_⟩
    · rw [hdone] at hloop
      simp only [hrun, List.append_assoc, List.cons_append, List.nil_append] at hloop ⊢
      rw [hsplit, hloop]
    · simp only [hrun, List.length_cons, List.length_append, List.length_replicate,
        List.replicate_succ, List.append_assoc, List.cons_append] at hread hoffsets ⊢
      rw [List.map_cons, hread, hoffsets]
      rfl

end Join

/-- Arguments that were joined come out of the split, and a split stays in its buffer for every line
and has at most `FINSH_ARG_MAX` arguments. -/
theorem msh_split_spec :
    (∀ args text, Joined args text → args.length ≤ FINSH_ARG_MAX →
      ∃ r, msh_split (text ++ [0]) text.length = some r ∧
        r.argv.map (cstrAt r.cmd) = args.map fun a => some a.value) ∧
    ∀ line : List UInt8, ∃ r, msh_split (line ++ [0]) line.length = some r ∧
      r.argv.length ≤ FINSH_ARG_MAX := by
  constructor
  · intro args text h hcount
    rcases eq_or_ne args [] with rfl | hne
    · cases h
      exact ⟨⟨[0], [], []⟩, splitLoop_end (le_refl _), rfl⟩
    · have hlen : text.length = ([] : List UInt8).length + ([] : List UInt8).length + text.length := by
        simp
      obtain ⟨tail, offsets, hsplit, hoffsets⟩ :=
        splitLoop_joined h hne [] [] [] (by simp) (by simpa using hcount) hlen
      exact ⟨_, hsplit, hoffsets⟩
  · intro line
    have hframed : Framed line.length (line ++ [0]) := ⟨by simp, by simp⟩
    obtain ⟨r, hsplit, hpointers⟩ :=
      splitLoop_safe hframed (Nat.zero_le _) ⟨fun p hp => (List.not_mem_nil hp).elim, Nat.zero_le _⟩
    exact ⟨r, hsplit, hpointers.count⟩

/-- `set` -/
def setArg : Arg := ⟨[chr 's', chr 'e', chr 't'], false, by decide, by decide +kernel, by decide +kernel⟩

/-- `"a b"` -/
def quotedArg : Arg := ⟨[chr 'a', chr ' ', chr 'b'], true, by decide, by decide +kernel, by simp⟩

/-- `set "a b"`: two arguments, one of them with a blank. -/
theorem msh_split_set :
    ∃ r, msh_split (setArg.written ++ ([chr ' '] ++ quotedArg.written) ++ [0])
        (setArg.written ++ ([chr ' '] ++ quotedArg.written)).length = some r ∧
      r.argv.map (cstrAt r.cmd) = [some setArg.value, some quotedArg.value] :=
  msh_split_spec.1 [setArg, quotedArg] _
    (.cons setArg ⟨[chr ' '], by decide, by decide +kernel⟩ (.one quotedArg)) (by decide)

end Ab32Vg1.Finsh.Msh
