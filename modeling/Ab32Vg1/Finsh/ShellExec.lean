import Ab32Vg1.Finsh.Shell

/-! `msh_exec` on a line: it reads the line and the `NUL` behind it and nothing else, it has a
value, and the arguments of a command are pieces of the line. -/

namespace Ab32Vg1.Finsh.Shell

open Msh

theorem takeWhile_string {t : List UInt8} (rest : List UInt8) (h : 0 ∉ t) :
    (t ++ 0 :: rest).takeWhile (· ≠ 0) = t := by
  have hplain : ∀ x ∈ t, decide (x ≠ 0) = true := fun x hx =>
    decide_eq_true fun hzero => h (hzero ▸ hx)
  rw [List.takeWhile_append_of_pos hplain, List.takeWhile_cons_of_neg (by decide), List.append_nil]

/-- A string, the `NUL` that ends it, and what is behind it. -/
theorem cstrAt_iff {cmd t : List UInt8} {i : Nat} :
    cstrAt cmd i = some t ↔ ∃ rest, cmd.drop i = t ++ 0 :: rest ∧ 0 ∉ t := by
  constructor
  · intro h
    rw [cstrAt] at h
    split at h
    next hmem =>
      obtain ⟨s, rest, hdrop, hplain⟩ := List.eq_append_cons_of_mem hmem
      rw [hdrop, takeWhile_string _ hplain] at h
      exact ⟨rest, Option.some.inj h ▸ hdrop, Option.some.inj h ▸ hplain⟩
    · cases h
  · rintro ⟨rest, hdrop, hplain⟩
    rw [cstrAt, hdrop, if_pos (by simp), takeWhile_string _ hplain]

/-! ### More memory behind the buffer -/

section Extend

variable {cmd cmd' more : List UInt8} {length position position' : Nat}

theorem getElem?_extend {c : UInt8} {i : Nat} (more : List UInt8) (h : cmd[i]? = some c) :
    (cmd ++ more)[i]? = some c := by
  obtain ⟨hlt, -⟩ := List.getElem?_eq_some_iff.mp h
  rw [List.getElem?_append_left hlt, h]

theorem stripBlanks_extend {r : List UInt8 × Nat} (h : stripBlanks length cmd position = some r) :
    stripBlanks length (cmd ++ more) position = some (r.1 ++ more, r.2) := by
  fun_induction stripBlanks length cmd position with
  | case1 => cases h
  | case2 cmd position c hc hblank ih =>
    obtain ⟨hlt, -⟩ := List.getElem?_eq_some_iff.mp hc
    rw [stripBlanks]
    simp only [getElem?_extend more hc]
    rw [dif_pos hblank, List.set_append_left _ _ hlt, ih h]
  | case3 cmd position c hc hstop =>
    obtain rfl := Option.some.inj h
    rw [stripBlanks]
    simp only [getElem?_extend more hc]
    rw [dif_neg hstop]

theorem skipString_extend (h : skipString length cmd position = some position') :
    skipString length (cmd ++ more) position = some position' := by
  fun_induction skipString length cmd position with
  | case1 => cases h
  | case2 => cases h
  | case3 position hc hcond hnext ih =>
    rw [skipString]
    simp only [getElem?_extend more hc, getElem?_extend more hnext]
    rw [dif_pos hcond, if_true, if_true, ih h]
  | case4 position next hnext hquote hc hcond ih =>
    rw [skipString]
    simp only [getElem?_extend more hc, getElem?_extend more hnext]
    rw [dif_pos hcond, if_true, if_neg hquote, ih h]
  | case5 position c hc hcond hplain ih =>
    rw [skipString]
    simp only [getElem?_extend more hc]
    rw [dif_pos hcond, if_neg hplain, ih h]
  | case6 position c hc hstop =>
    rw [skipString]
    simp only [getElem?_extend more hc]
    rw [dif_neg hstop, h]

theorem skipWord_extend (h : skipWord length cmd position = some position') :
    skipWord length (cmd ++ more) position = some position' := by
  fun_induction skipWord length cmd position with
  | case1 => cases h
  | case2 position c hc hword ih =>
    rw [skipWord]
    simp only [getElem?_extend more hc]
    rw [dif_pos hword, ih h]
  | case3 position c hc hstop =>
    rw [skipWord]
    simp only [getElem?_extend more hc]
    rw [dif_neg hstop, h]

/-- The character that ends a word is in the buffer. -/
theorem skipWord_inside (h : skipWord length cmd position = some position') :
    position' < cmd.length := by
  fun_induction skipWord length cmd position with
  | case1 => cases h
  | case2 position c hc hword ih => exact ih h
  | case3 position c hc hstop =>
    obtain rfl := Option.some.inj h
    obtain ⟨hlt, -⟩ := List.getElem?_eq_some_iff.mp hc
    exact hlt

theorem skipString_inside (h : skipString length cmd position = some position') :
    position' < cmd.length := by
  fun_induction skipString length cmd position with
  | case1 => cases h
  | case2 => cases h
  | case3 _ _ _ _ ih | case4 _ _ _ _ _ _ ih | case5 _ _ _ _ _ ih => exact ih h
  | case6 position c hc hstop =>
    obtain rfl := Option.some.inj h
    obtain ⟨hlt, -⟩ := List.getElem?_eq_some_iff.mp hc
    exact hlt

theorem cstrAt_extend {t : List UInt8} {i : Nat} (h : cstrAt cmd i = some t) :
    cstrAt (cmd ++ more) i = some t := by
  obtain ⟨rest, hdrop, hplain⟩ := cstrAt_iff.mp h
  refine cstrAt_iff.mpr ⟨rest ++ more, ?_, hplain⟩
  have hle : i ≤ cmd.length := by
    have hlen := congrArg List.length hdrop
    rw [List.length_drop, List.length_append, List.length_cons] at hlen
    omega
  rw [List.drop_append_of_le_length hle, hdrop, List.append_assoc, List.cons_append]

theorem mapM_cstrAt_extend {argv : List Nat} {ts : List (List UInt8)}
    (h : argv.mapM (cstrAt cmd) = some ts) : argv.mapM (cstrAt (cmd ++ more)) = some ts := by
  induction argv generalizing ts with
  | nil => exact h
  | cons p argv ih =>
    rw [List.mapM_cons] at h ⊢
    obtain ⟨t, ht, h⟩ := Option.bind_eq_some_iff.mp h
    obtain ⟨ts', hts, h⟩ := Option.bind_eq_some_iff.mp h
    exact Option.bind_eq_some_iff.mpr ⟨t, cstrAt_extend ht,
      Option.bind_eq_some_iff.mpr ⟨ts', ih hts, h⟩⟩

/-- The same result with more memory behind the buffer. -/
def splitExtend (more : List UInt8) (r : Split) : Split := { r with cmd := r.cmd ++ more }

def turnExtend (more : List UInt8) : Turn → Turn
  | .next cmd position argv => .next (cmd ++ more) position argv
  | .stop r => .stop (splitExtend more r)

theorem argTurn_extend {argv : List Nat} {t : Turn}
    (h : argTurn length cmd position argv = some t) :
    argTurn length (cmd ++ more) position argv = some (turnExtend more t) := by
  obtain ⟨c, hc, h⟩ := Option.bind_eq_some_iff.mp h
  refine Option.bind_eq_some_iff.mpr ⟨c, getElem?_extend _ hc, ?_⟩
  split at h
  next hquote =>
    obtain ⟨position₁, hskip, h⟩ := Option.bind_eq_some_iff.mp h
    rw [if_pos hquote]
    refine Option.bind_eq_some_iff.mpr ⟨position₁, skipString_extend hskip, ?_⟩
    split at h
    next hlast =>
      rw [if_pos hlast, ← Option.some.inj h]
      rfl
    next hopen =>
      have hlt := skipString_inside hskip
      rw [if_neg hopen, ← Option.some.inj h, List.set_append_left _ _ hlt]
      rfl
  next hquote =>
    obtain ⟨position₁, hskip, h⟩ := Option.bind_eq_some_iff.mp h
    rw [if_neg hquote]
    refine Option.bind_eq_some_iff.mpr ⟨position₁, skipWord_extend hskip, ?_⟩
    split at h
    next hlast =>
      rw [if_pos hlast, ← Option.some.inj h]
      rfl
    next hopen =>
      rw [if_neg hopen, ← Option.some.inj h]
      rfl

theorem turn_extend {argv : List Nat} {t : Turn} (h : Msh.turn length cmd position argv = some t) :
    Msh.turn length (cmd ++ more) position argv = some (turnExtend more t) := by
  obtain ⟨r, hstrip, h⟩ := Option.bind_eq_some_iff.mp h
  refine Option.bind_eq_some_iff.mpr ⟨_, stripBlanks_extend hstrip, ?_⟩
  split at h
  next hmax =>
    obtain ⟨printed, hprinted, h⟩ := Option.bind_eq_some_iff.mp h
    rw [if_pos hmax]
    refine Option.bind_eq_some_iff.mpr ⟨printed, mapM_cstrAt_extend hprinted, ?_⟩
    rw [← Option.some.inj h]
    rfl
  next hmax =>
    rw [if_neg hmax]
    split at h
    next hend =>
      rw [if_pos hend, ← Option.some.inj h]
      rfl
    next hend =>
      rw [if_neg hend]
      exact argTurn_extend h

theorem splitLoop_extend {argv : List Nat} {r : Split}
    (h : splitLoop length cmd position argv = some r) :
    splitLoop length (cmd ++ more) position argv = some (splitExtend more r) := by
  fun_induction splitLoop length cmd position argv with
  | case1 => cases h
  | case2 cmd position argv hlt r' hturn =>
    obtain rfl := Option.some.inj h
    exact splitLoop_stop hlt (turn_extend hturn)
  | case3 cmd position argv hlt cmd' position' argv' hturn ih =>
    rw [splitLoop_next hlt (turn_extend hturn), ih h]
  | case4 cmd position argv hend =>
    obtain rfl := Option.some.inj h
    exact splitLoop_end (Nat.not_lt.mp hend)

theorem strncmp_extend {s : List UInt8} {n : Nat} {b : Bool} (h : strncmp s cmd n = some b) :
    strncmp s (cmd ++ more) n = some b := by
  fun_induction strncmp s cmd n with
  | case1 =>
    rw [strncmp]
    exact h
  | case2 a s b' t n hne =>
    rw [List.cons_append, strncmp, if_pos hne, h]
  | case3 s b' t n heq =>
    rw [List.cons_append, strncmp, if_neg heq, if_pos rfl, h]
  | case4 a s b' t n heq hzero ih =>
    rw [List.cons_append, strncmp, if_neg heq, if_neg hzero, ih h]
  | case5 => cases h

theorem msh_get_cmd_extend {size : Nat} {table : List (List UInt8 × Ident)} {r : Option Ident}
    (h : msh_get_cmd cmd size table = some r) : msh_get_cmd (cmd ++ more) size table = some r := by
  induction table with
  | nil => exact h
  | cons entry table ih =>
    obtain ⟨name, func⟩ := entry
    rw [msh_get_cmd] at h ⊢
    obtain ⟨b, hb, h⟩ := Option.bind_eq_some_iff.mp h
    refine Option.bind_eq_some_iff.mpr ⟨b, hb, ?_⟩
    split at h
    next hskip =>
      rw [if_pos hskip]
      exact ih h
    next hskip =>
      obtain ⟨b', hb', h⟩ := Option.bind_eq_some_iff.mp h
      rw [if_neg hskip]
      refine Option.bind_eq_some_iff.mpr ⟨b', strncmp_extend hb', ?_⟩
      split at h
      next hdiffers =>
        rw [if_pos hdiffers]
        exact ih h
      next hdiffers =>
        obtain ⟨c, hc, h⟩ := Option.bind_eq_some_iff.mp h
        rw [if_neg hdiffers]
        refine Option.bind_eq_some_iff.mpr ⟨c, hc, ?_⟩
        split at h
        next hlonger =>
          rw [if_pos hlonger]
          exact ih h
        next hlonger => rw [if_neg hlonger, h]

theorem _msh_exec_cmd_extend {w : World} {r : Except (List UInt8) Exec}
    (h : _msh_exec_cmd w cmd length = some r) :
    _msh_exec_cmd w (cmd ++ more) length = some (r.mapError (· ++ more)) := by
  obtain ⟨size, hsize, h⟩ := Option.bind_eq_some_iff.mp h
  refine Option.bind_eq_some_iff.mpr ⟨size, skipWord_extend hsize, ?_⟩
  split at h
  next hempty =>
    rw [if_pos hempty, ← Option.some.inj h]
    rfl
  next hempty =>
    obtain ⟨found, hfound, h⟩ := Option.bind_eq_some_iff.mp h
    rw [if_neg hempty]
    refine Option.bind_eq_some_iff.mpr ⟨found, msh_get_cmd_extend hfound, ?_⟩
    cases found with
    | none =>
      rw [← Option.some.inj h]
      rfl
    | some cmd_func =>
      obtain ⟨split, hsplit, h⟩ := Option.bind_eq_some_iff.mp h
      refine Option.bind_eq_some_iff.mpr ⟨splitExtend more split, splitLoop_extend hsplit, ?_⟩
      split at h
      next hargc =>
        rw [if_pos (show (splitExtend more split).argv.length = 0 from hargc), ← Option.some.inj h]
        rfl
      next hargc =>
        obtain ⟨argv, hargv, h⟩ := Option.bind_eq_some_iff.mp h
        rw [if_neg (show ¬(splitExtend more split).argv.length = 0 from hargc)]
        refine Option.bind_eq_some_iff.mpr ⟨argv, mapM_cstrAt_extend hargv, ?_⟩
        rw [← Option.some.inj h]
        rfl

theorem msh_exec_script_extend {w : World} {r : Option (List UInt8)}
    (h : msh_exec_script w cmd length = some r) : msh_exec_script w (cmd ++ more) length = some r := by
  rw [msh_exec_script] at h ⊢
  split at h
  next hempty => rw [if_pos hempty, h]
  next hempty =>
    obtain ⟨size, hsize, h⟩ := Option.bind_eq_some_iff.mp h
    rw [if_neg hempty]
    refine Option.bind_eq_some_iff.mpr ⟨size, skipWord_extend hsize, ?_⟩
    rw [List.take_append_of_le_length (skipWord_inside hsize).le]
    exact h

theorem trimCmd_extend {r : List UInt8 × Nat} (h : trimCmd cmd length = some r) :
    trimCmd (cmd ++ more) length = some (r.1 ++ more, r.2) := by
  fun_induction trimCmd cmd length with
  | case1 => cases h
  | case2 length c cmd hblank ih => rw [List.cons_append, trimCmd, if_pos hblank, ih h]
  | case3 length c cmd hblank =>
    obtain rfl := Option.some.inj h
    rw [List.cons_append, trimCmd, if_neg hblank]

/-- What `msh_exec` does with a buffer it does with a larger one. -/
theorem msh_exec_extend {w : World} {r : Exec} (more : List UInt8)
    (h : msh_exec w cmd length = some r) : msh_exec w (cmd ++ more) length = some r := by
  obtain ⟨⟨cmd₁, length₁⟩, htrim, h⟩ := Option.bind_eq_some_iff.mp h
  refine Option.bind_eq_some_iff.mpr ⟨_, trimCmd_extend htrim, ?_⟩
  simp only at h ⊢
  split at h
  next hempty => rw [if_pos hempty, h]
  next hempty =>
    obtain ⟨ret, hret, h⟩ := Option.bind_eq_some_iff.mp h
    rw [if_neg hempty]
    refine Option.bind_eq_some_iff.mpr ⟨_, _msh_exec_cmd_extend hret, ?_⟩
    cases ret with
    | ok ret => exact h
    | error cmd₂ =>
      obtain ⟨script, hscript, h⟩ := Option.bind_eq_some_iff.mp h
      refine Option.bind_eq_some_iff.mpr ⟨script, msh_exec_script_extend hscript, ?_⟩
      cases script with
      | some pg_name => exact h
      | none =>
        obtain ⟨s, hs, h⟩ := Option.bind_eq_some_iff.mp h
        exact Option.bind_eq_some_iff.mpr ⟨s, cstrAt_extend hs, h⟩

end Extend

/-! ### What is left of a line that was split -/

/-- The same buffer with `NUL` over some of its characters. -/
structure Erased (cmd cmd' : List UInt8) : Prop where
  length_eq : cmd'.length = cmd.length
  read (i : Nat) : cmd'[i]? = cmd[i]? ∨ cmd'[i]? = some 0

section Erase

variable {cmd cmd' cmd'' : List UInt8} {length position : Nat}

theorem Erased.refl (cmd : List UInt8) : Erased cmd cmd := ⟨rfl, fun _ => .inl rfl⟩

theorem Erased.trans (h : Erased cmd cmd') (h' : Erased cmd' cmd'') : Erased cmd cmd'' where
  length_eq := h'.length_eq.trans h.length_eq
  read i := by
    rcases h'.read i with hi | hi
    · rw [hi]
      exact h.read i
    · exact .inr hi

theorem Erased.set (cmd : List UInt8) (position : Nat) : Erased cmd (cmd.set position 0) where
  length_eq := List.length_set
  read i := by
    rw [List.getElem?_set]
    split_ifs with heq hlt
    · exact .inr rfl
    · rw [← heq, List.getElem?_eq_none (by omega)]
      exact .inl rfl
    · exact .inl rfl

theorem Erased.framed (h : Erased cmd cmd') (hframed : Framed length cmd) : Framed length cmd' where
  size := h.length_eq.trans hframed.size
  nul := by
    rcases h.read length with hi | hi
    · rw [hi, hframed.nul]
    · exact hi

theorem stripBlanks_erased {r : List UInt8 × Nat} (h : stripBlanks length cmd position = some r) :
    Erased cmd r.1 := by
  fun_induction stripBlanks length cmd position with
  | case1 => cases h
  | case2 cmd position c hc hblank ih => exact (Erased.set cmd position).trans (ih h)
  | case3 cmd position c hc hstop =>
    obtain rfl := Option.some.inj h
    exact .refl cmd

/-- The buffer after a turn. -/
def turnCmd : Turn → List UInt8
  | .next cmd _ _ => cmd
  | .stop r => r.cmd

theorem argTurn_erased {argv : List Nat} {t : Turn}
    (h : argTurn length cmd position argv = some t) : Erased cmd (turnCmd t) := by
  obtain ⟨c, hc, h⟩ := Option.bind_eq_some_iff.mp h
  split at h
  · obtain ⟨position₁, hskip, h⟩ := Option.bind_eq_some_iff.mp h
    split at h
    · rw [← Option.some.inj h]
      exact .refl cmd
    · rw [← Option.some.inj h]
      exact .set cmd position₁
  · obtain ⟨position₁, hskip, h⟩ := Option.bind_eq_some_iff.mp h
    split at h <;>
      · rw [← Option.some.inj h]
        exact .refl cmd

theorem turn_erased {argv : List Nat} {t : Turn} (h : Msh.turn length cmd position argv = some t) :
    Erased cmd (turnCmd t) := by
  obtain ⟨r, hstrip, h⟩ := Option.bind_eq_some_iff.mp h
  have hstrip := stripBlanks_erased hstrip
  split at h
  · obtain ⟨printed, -, h⟩ := Option.bind_eq_some_iff.mp h
    rw [← Option.some.inj h]
    exact hstrip
  · split at h
    · rw [← Option.some.inj h]
      exact hstrip
    · exact hstrip.trans (argTurn_erased h)

theorem splitLoop_erased {argv : List Nat} {r : Split}
    (h : splitLoop length cmd position argv = some r) : Erased cmd r.cmd := by
  fun_induction splitLoop length cmd position argv with
  | case1 => cases h
  | case2 cmd position argv hlt r' hturn =>
    obtain rfl := Option.some.inj h
    exact turn_erased hturn
  | case3 cmd position argv hlt cmd' position' argv' hturn ih =>
    exact (turn_erased hturn).trans (ih h)
  | case4 cmd position argv hend =>
    obtain rfl := Option.some.inj h
    exact .refl cmd

/-- A string that is left is a piece of the buffer. -/
theorem Erased.piece {a : List UInt8} {p : Nat} (h : Erased cmd cmd') (ha : cstrAt cmd' p = some a) :
    a <:+: cmd := by
  obtain ⟨rest, hdrop, hplain⟩ := cstrAt_iff.mp ha
  have hpiece : (cmd.drop p).take a.length = a := by
    refine List.ext_getElem? fun j => ?_
    have hread : cmd'[p + j]? = (a ++ 0 :: rest)[j]? := by rw [← hdrop, List.getElem?_drop]
    by_cases hj : j < a.length
    · rw [List.getElem?_take_of_lt hj, List.getElem?_drop]
      rw [List.getElem?_append_left hj] at hread
      rcases h.read (p + j) with hi | hi
      · rw [← hi, hread]
      · refine absurd (List.mem_of_getElem? (hread.symm.trans hi)) hplain
    · rw [List.getElem?_take_eq_none (by omega), List.getElem?_eq_none (by omega)]
  rw [← hpiece]
  exact (List.take_prefix ..).isInfix.trans (List.drop_suffix ..).isInfix

end Erase

/-! ### A line is run -/

section Line

variable {w : World} {t word rest : List UInt8}

theorem strncmp_word (s rest word : List UInt8) (h : 0 ∉ word) :
    strncmp (s ++ [0]) (word ++ rest) word.length = some (word.isPrefixOf s) := by
  induction word generalizing s with
  | nil =>
    rw [List.length_nil, strncmp]
    rfl
  | cons c word ih =>
    have hc := List.ne_of_not_mem_cons h
    have hword := List.not_mem_of_not_mem_cons h
    cases s with
    | nil =>
      rw [List.nil_append, List.cons_append, List.length_cons, strncmp, if_pos hc]
      rfl
    | cons a s =>
      rw [List.cons_append, List.cons_append, List.length_cons, strncmp]
      by_cases hac : a = c
      · subst hac
        rw [if_neg (by simp), if_neg (Ne.symm hc), ih s hword]
        simp
      · have hca : (c == a) = false := beq_eq_false_iff_ne.mpr (Ne.symm hac)
        rw [if_pos hac, List.isPrefixOf, hca, Bool.false_and]

theorem msh_get_cmd_word (table : List (List UInt8 × Ident)) (rest : List UInt8) (h : 0 ∉ word)
    (hnames : ∀ entry ∈ table, 0 ∉ entry.1) :
    msh_get_cmd (word ++ rest) word.length table =
      some ((table.find? fun entry => entry.1 = cmdPrefix ++ word).map (·.2)) := by
  induction table with
  | nil => rfl
  | cons entry table ih =>
    obtain ⟨name, func⟩ := entry
    have hname := hnames _ (List.mem_cons_self ..)
    have ih := ih fun entry hentry => hnames entry (List.mem_cons_of_mem _ hentry)
    have hfirst := strncmp_word name [0] cmdPrefix (by decide)
    rw [msh_get_cmd]
    change (strncmp (name ++ [0]) (cmdPrefix ++ [0]) cmdPrefix.length >>= _) = _
    rw [hfirst, Option.bind_eq_bind, Option.bind_some]
    by_cases hcmd : cmdPrefix.isPrefixOf name = true
    · obtain ⟨s, rfl⟩ := List.isPrefixOf_iff_prefix.mp hcmd
      have hdrop : (cmdPrefix ++ s ++ [0]).drop 6 = s ++ [0] := rfl
      have hread : (cmdPrefix ++ s ++ [0])[6 + word.length]? = (s ++ [0])[word.length]? := by
        rw [← hdrop, List.getElem?_drop]
      have hs : 0 ∉ s := fun hzero => hname (List.mem_append_right _ hzero)
      rw [if_neg (by simp), hdrop, strncmp_word s rest word h, hread, Option.bind_some]
      by_cases hword : word.isPrefixOf s = true
      · obtain ⟨s, rfl⟩ := List.isPrefixOf_iff_prefix.mp hword
        rw [if_neg (by simp), List.append_assoc, List.getElem?_append_right (le_refl _), Nat.sub_self]
        cases s with
        | nil => simp
        | cons c s =>
          have hc : c ≠ 0 := fun hzero => hs (hzero ▸ by simp)
          rw [List.cons_append, List.getElem?_cons_zero, Option.bind_eq_bind, Option.bind_some,
            if_pos hc, ih]
          simp
      · have hne : ¬cmdPrefix ++ s = cmdPrefix ++ word := fun heq =>
          hword (List.isPrefixOf_iff_prefix.mpr (List.append_cancel_left heq ▸ List.prefix_rfl))
        rw [if_pos (by simp [hword]), ih]
        simp [hne]
    · have hne : ¬name = cmdPrefix ++ word := fun heq =>
        hcmd (List.isPrefixOf_iff_prefix.mpr (heq ▸ List.prefix_append ..))
      rw [if_pos (by simp [hcmd]), ih]
      simp [hne]

theorem trimCmd_line (t : List UInt8) (h : t.length < 4294967296) :
    trimCmd (t ++ [0]) t.length =
      some (t.dropWhile isBlank ++ [0], (t.dropWhile isBlank).length) := by
  induction t with
  | nil => rfl
  | cons c t ih =>
    rw [List.length_cons] at h
    rw [List.cons_append, trimCmd]
    by_cases hc : isBlank c = true
    · have hlen : (t.length + 1 + 4294967295) % 4294967296 = t.length := by omega
      rw [if_pos hc, List.length_cons, hlen, ih (by omega), List.dropWhile_cons_of_pos hc]
    · rw [if_neg hc, List.dropWhile_cons_of_neg hc]
      rfl

theorem framed_line (t : List UInt8) : Framed t.length (t ++ [0]) where
  size := by rw [List.length_append, List.length_singleton]
  nul := by rw [List.getElem?_append_right (le_refl _), Nat.sub_self, List.getElem?_cons_zero]

theorem mapM_cstrAt_mem {cmd a : List UInt8} {argv : List Nat} {ts : List (List UInt8)}
    (h : argv.mapM (cstrAt cmd) = some ts) (ha : a ∈ ts) : ∃ p, cstrAt cmd p = some a := by
  induction argv generalizing ts with
  | nil =>
    obtain rfl := Option.some.inj h
    exact absurd ha List.not_mem_nil
  | cons p argv ih =>
    rw [List.mapM_cons] at h
    obtain ⟨s, hs, h⟩ := Option.bind_eq_some_iff.mp h
    obtain ⟨ts', hts, h⟩ := Option.bind_eq_some_iff.mp h
    obtain rfl := Option.some.inj h
    rcases List.mem_cons.mp ha with rfl | ha
    · exact ⟨p, hs⟩
    · exact ih hts ha

/-- A piece of the buffer without a `NUL` is one of the line. -/
theorem piece_of_line {a : List UInt8} (h : a <:+: t ++ [0]) (hplain : 0 ∉ a) : a <:+: t := by
  rcases List.infix_concat_iff.mp h with hend | hinside
  · rcases List.suffix_concat_iff.mp hend with rfl | ⟨s, rfl, -⟩
    · exact List.nil_infix
    · exact absurd (by simp) hplain
  · exact hinside

/-- A command is called with pieces of the line, and an error leaves the buffer of a line. -/
theorem _msh_exec_cmd_line (w : World) (h : 0 ∉ t) :
    ∃ r, _msh_exec_cmd w (t ++ [0]) t.length = some r ∧
      match r with
      | .ok ret => ∃ func argv, ret = .command func argv ∧ ∀ a ∈ argv, a <:+: t
      | .error cmd => Framed t.length cmd := by
  have hframed := framed_line t
  obtain ⟨size, hsize, hle⟩ := skipWord_safe hframed (Nat.zero_le _)
  simp only [_msh_exec_cmd, hsize, Option.bind_eq_bind, Option.bind_some]
  by_cases hempty : size = 0
  · exact ⟨_, if_pos hempty, hframed⟩
  rw [if_neg hempty]
  have hword : 0 ∉ t.take size := fun hzero => h (List.mem_of_mem_take hzero)
  have hfound := msh_get_cmd_word w.symbols.syscall_table (t.drop size ++ [0]) hword
    fun entry hentry => w.symbol_names _ (List.mem_append_left _ (List.mem_map_of_mem hentry))
  rw [← List.append_assoc, List.take_append_drop, List.length_take_of_le hle] at hfound
  rw [hfound, Option.bind_some]
  cases (w.symbols.syscall_table.find? fun entry => entry.1 = cmdPrefix ++ t.take size).map (·.2) with
  | none => exact ⟨_, rfl, hframed⟩
  | some func =>
    obtain ⟨r, hsplit, hpointers⟩ := splitLoop_safe hframed (Nat.zero_le _)
      ⟨fun p hp => (List.not_mem_nil hp).elim, Nat.zero_le _⟩
    have herased := splitLoop_erased hsplit
    have hframed' := herased.framed hframed
    obtain ⟨argv, hargv⟩ := hframed'.print hpointers.le
    simp only [msh_split, hsplit, Option.bind_some, hargv]
    by_cases hargc : r.argv.length = 0
    · exact ⟨_, if_pos hargc, hframed'⟩
    · refine ⟨_, if_neg hargc, func, argv, rfl, fun a ha => ?_⟩
      obtain ⟨p, hp⟩ := mapM_cstrAt_mem hargv ha
      obtain ⟨rest, -, hplain⟩ := cstrAt_iff.mp hp
      exact piece_of_line (herased.piece hp) hplain

theorem msh_exec_script_line (w : World) {cmd : List UInt8} {length : Nat}
    (h : Framed length cmd) (hlen : length < 2147483648) :
    ∃ r, msh_exec_script w cmd length = some r := by
  obtain ⟨size, hsize, -⟩ := skipWord_safe h (Nat.zero_le _)
  simp only [msh_exec_script, if_pos hlen, hsize, Option.bind_eq_bind, Option.bind_some]
  split_ifs <;> exact ⟨_, rfl⟩

/-- A line is run, and the arguments of a command are pieces of it. -/
theorem msh_exec_line (w : World) (h : 0 ∉ t) (hlen : t.length < FINSH_CMD_SIZE) :
    ∃ r, msh_exec w (t ++ [0]) t.length = some r ∧
      ∀ func argv, r = .command func argv → ∀ a ∈ argv, a <:+: t := by
  have hsuffix := List.dropWhile_suffix (l := t) isBlank
  have hplain : 0 ∉ t.dropWhile isBlank := fun hzero => h (hsuffix.mem hzero)
  have hle := hsuffix.length_le
  have hsize : t.length < 2147483648 := hlen.trans (by decide)
  simp only [msh_exec, trimCmd_line t (hsize.trans (by decide)), Option.bind_eq_bind,
    Option.bind_some]
  by_cases hempty : (t.dropWhile isBlank).length = 0
  · exact ⟨_, if_pos hempty, by simp⟩
  rw [if_neg hempty]
  obtain ⟨r, hr, hcases⟩ := _msh_exec_cmd_line w hplain
  rw [hr, Option.bind_some]
  cases r with
  | ok ret =>
    obtain ⟨func, argv, rfl, hargv⟩ := hcases
    refine ⟨_, rfl, fun func' argv' heq a ha => ?_⟩
    obtain ⟨rfl, rfl⟩ := Exec.command.inj heq
    exact (hargv a ha).trans hsuffix.isInfix
  | error cmd =>
    obtain ⟨script, hscript⟩ := msh_exec_script_line w hcases (by omega)
    obtain ⟨s, hs⟩ := Framed.cstrAt hcases (Nat.zero_le _)
    simp only [hscript, Option.bind_some]
    cases script with
    | some pg_name => exact ⟨_, rfl, by simp⟩
    | none => exact ⟨.not_found (s.takeWhile (· ≠ chr ' ')), by rw [hs, Option.bind_some], by simp⟩

end Line

end Ab32Vg1.Finsh.Shell
