import Ab32Vg1.Finsh.ShellExec
import Ab32Vg1.ProofKit.CommonPrefix

/-! The completion on the line as text, and what the code makes of the buffer. -/

namespace Ab32Vg1.Finsh.Shell

open Msh ProofKit

/-! ### The completed line -/

/-- The longest text that all names with this beginning begin with. -/
def extend (names : List (List UInt8)) (s : List UInt8) : List UInt8 :=
  match names.filter s.isPrefixOf with
  | [] => s
  | name :: names => names.foldl commonPrefix name

/-- A path with the name at its end completed. -/
def completedPath (w : World) (path : List UInt8) : List UInt8 :=
  if w.rt_malloc 256 then
    match w.opendir (fullPath w path) with
    | none => path
    | some dir =>
      if path.drop (nameStart path) = [] then path
      else path.take (nameStart path) ++ extend dir (path.drop (nameStart path))
  else path

/-- A line with the path behind its last space completed. -/
def withPath (w : World) (s : List UInt8) : List UInt8 :=
  match lastSpace s s.length with
  | some ptr => s.take (ptr + 1) ++ completedPath w (s.drop (ptr + 1))
  | none => s

/-- The completed line. -/
def completion (w : World) (s : List UInt8) : List UInt8 :=
  if s = [] then []
  else if w.msh_is_used then extend (commands w.symbols) (withPath w s)
  else extend (listed w.symbols) s

section Extend

variable {names : List (List UInt8)} {s : List UInt8}

theorem isPrefix_extend (names : List (List UInt8)) (s : List UInt8) : s <+: extend names s := by
  rw [extend]
  split
  · exact List.prefix_rfl
  next name rest hfilter =>
    have hall (t : List UInt8) (ht : t ∈ name :: rest) : s <+: t := by
      rw [← hfilter] at ht
      exact List.isPrefixOf_iff_prefix.mp (List.mem_filter.mp ht).2
    exact isPrefix_foldl_commonPrefix_iff.mpr
      ⟨hall name (List.mem_cons_self ..), fun t ht => hall t (List.mem_cons_of_mem _ ht)⟩

/-- Names have no `NUL`, and neither has what they begin with. -/
theorem extend_plain (hnames : ∀ name ∈ names, 0 ∉ name) (h : 0 ∉ s) : 0 ∉ extend names s := by
  rw [extend]
  split
  · exact h
  next name rest hfilter =>
    have hmem : name ∈ names.filter s.isPrefixOf := by
      rw [hfilter]
      exact List.mem_cons_self ..
    have hname := (List.mem_filter.mp hmem).1
    have hle : rest.foldl commonPrefix name <+: name :=
      (isPrefix_foldl_commonPrefix_iff.mp List.prefix_rfl).1
    exact fun hzero => hnames name hname (hle.subset hzero)

theorem commonPrefix_take (s t : List UInt8) (k : Nat) :
    commonPrefix (s.take k) t = s.take (min k (str_common s t)) := by
  induction s generalizing t k with
  | nil => simp [commonPrefix]
  | cons a s ih =>
    cases t with
    | nil => cases k <;> simp [commonPrefix, str_common]
    | cons b t =>
      cases k with
      | zero => simp [commonPrefix]
      | succ k =>
        rw [List.take_succ_cons, commonPrefix, str_common]
        split
        · rw [ih, Nat.succ_min_succ, List.take_succ_cons]
        · simp

theorem str_common_self (s : List UInt8) : str_common s s = s.length := by
  induction s with
  | nil => rfl
  | cons a s ih => rw [str_common, if_pos rfl, ih, List.length_cons]

theorem foldl_narrow (name : List UInt8) (k : Nat) (names : List (List UInt8)) :
    (names.foldl narrow (some (name, k))).map (fun (name, k) => name.take k) =
      some (names.foldl commonPrefix (name.take k)) := by
  induction names generalizing k with
  | nil => rfl
  | cons t names ih => rw [List.foldl_cons, List.foldl_cons, narrow, ih, commonPrefix_take]

/-- The loops over the names find the text that the line is extended to. -/
theorem matching_eq (names : List (List UInt8)) (s : List UInt8) :
    (matching names s).getD s = extend names s := by
  rw [matching, extend]
  cases hfilter : names.filter s.isPrefixOf with
  | nil => rfl
  | cons name rest =>
    rw [List.foldl_cons, narrow, str_common_self, Nat.min_self, foldl_narrow, List.take_length]
    rfl

theorem matching_cases (names : List (List UInt8)) (s : List UInt8) :
    matching names s = none ∧ extend names s = s ∨
      matching names s = some (extend names s) := by
  have heq := matching_eq names s
  cases hmatch : matching names s with
  | none =>
    rw [hmatch] at heq
    exact .inl ⟨rfl, heq.symm⟩
  | some name =>
    rw [hmatch] at heq
    exact .inr (congrArg some heq)

end Extend

/-! ### The buffer of a line -/

/-- A line with `NUL` behind it up to the end of the buffer. -/
def buffer (s : List UInt8) : List UInt8 := s ++ List.replicate (FINSH_CMD_SIZE + 1 - s.length) 0

section Buffer

variable {s name : List UInt8} {i : Nat}

theorem length_buffer (h : s.length ≤ FINSH_CMD_SIZE) : (buffer s).length = FINSH_CMD_SIZE + 1 := by
  rw [buffer, List.length_append, List.length_replicate]
  omega

theorem buffer_eq (h : s.length ≤ FINSH_CMD_SIZE) :
    buffer s = s ++ 0 :: List.replicate (FINSH_CMD_SIZE - s.length) 0 := by
  have hroom : FINSH_CMD_SIZE + 1 - s.length = FINSH_CMD_SIZE - s.length + 1 := by omega
  rw [buffer, hroom, List.replicate_succ]

theorem cstrAt_buffer (hplain : 0 ∉ s) (h : s.length ≤ FINSH_CMD_SIZE) (hi : i ≤ s.length) :
    cstrAt (buffer s) i = some (s.drop i) := by
  refine cstrAt_iff.mpr ⟨List.replicate (FINSH_CMD_SIZE - s.length) 0, ?_,
    fun hzero => hplain (List.mem_of_mem_drop hzero)⟩
  rw [buffer_eq h, List.drop_append_of_le_length hi]

/-- What is behind the line in the buffer. -/
theorem drop_buffer (hi : s.length ≤ i) :
    (buffer s).drop i = List.replicate (FINSH_CMD_SIZE + 1 - i) 0 := by
  rw [buffer, List.drop_append, List.drop_eq_nil_of_le hi, List.nil_append, List.drop_replicate]
  congr 1
  omega

/-- A name over the end of the line. -/
theorem memcpy_buffer (hi : i ≤ s.length) (hend : s.length ≤ i + name.length)
    (hfits : i + name.length ≤ FINSH_CMD_SIZE) :
    memcpy (buffer s) i name name.length = some (buffer (s.take i ++ name)) := by
  have hlen := length_buffer (hend.trans hfits)
  rw [memcpy, if_pos ⟨by omega, le_refl _⟩, List.take_length, drop_buffer hend, buffer, buffer,
    List.take_append_of_le_length hi, List.append_assoc, List.length_append,
    List.length_take_of_le hi]

theorem write_buffer (h : s.length ≤ FINSH_CMD_SIZE) :
    write (buffer s) s.length 0 = some (buffer s) := by
  have hlen := length_buffer h
  rw [write, if_pos (by omega), buffer_eq h, write_append]

end Buffer

/-! ### The code completes the line -/

section Complete

variable {w : World} {s path : List UInt8}

theorem lastSpace_lt {n ptr : Nat} (h : lastSpace s n = some ptr) : ptr < s.length := by
  induction n with
  | zero => cases h
  | succ n ih =>
    rw [lastSpace] at h
    split at h
    next hread =>
      obtain rfl := Option.some.inj h
      obtain ⟨hlt, -⟩ := List.getElem?_eq_some_iff.mp hread
      exact hlt
    next => exact ih h

/-- The end of a line becomes longer. -/
theorem isPrefix_take_append {t : List UInt8} {i : Nat} (h : s.drop i <+: t) : s <+: s.take i ++ t := by
  have happend := (List.prefix_append_right_inj (s.take i)).mpr h
  rwa [List.take_append_drop] at happend

theorem isPrefix_completedPath (w : World) (path : List UInt8) : path <+: completedPath w path := by
  rw [completedPath]
  split
  · split
    · exact List.prefix_rfl
    · split
      · exact List.prefix_rfl
      · exact isPrefix_take_append (isPrefix_extend ..)
  · exact List.prefix_rfl

theorem completedPath_plain (h : 0 ∉ path) : 0 ∉ completedPath w path := by
  rw [completedPath]
  split
  · split
    · exact h
    next dir hdir =>
      split
      · exact h
      · refine fun hzero => (List.mem_append.mp hzero).elim (fun hz => h (List.mem_of_mem_take hz)) ?_
        exact extend_plain (w.dir_names _ _ hdir) fun hz => h (List.mem_of_mem_drop hz)
  · exact h

/-- The path at the end of a line. -/
theorem msh_auto_complete_path_buffer {i : Nat} (hplain : 0 ∉ s) (hi : i ≤ s.length)
    (hfits : (s.take i ++ completedPath w (s.drop i)).length ≤ FINSH_CMD_SIZE) :
    msh_auto_complete_path w (buffer s) i = some (buffer (s.take i ++ completedPath w (s.drop i))) := by
  have hgrows := (isPrefix_take_append (isPrefix_completedPath w (s.drop i))).length_le
  have hread := cstrAt_buffer hplain (hgrows.trans hfits) hi
  have hsame : some (buffer s) = some (buffer (s.take i ++ s.drop i)) := by
    rw [List.take_append_drop]
  simp only [msh_auto_complete_path, hread, Option.bind_eq_bind, Option.bind_some]
  cases hmalloc : w.rt_malloc 256 with
  | false => simp [completedPath, hmalloc]
  | true =>
    cases hdir : w.opendir (fullPath w (s.drop i)) with
    | none => simp [completedPath, hmalloc, hdir]
    | some dir =>
      simp only [completedPath, hmalloc, hdir, Bool.not_true, Bool.false_eq_true, if_false,
        if_true] at hfits hgrows ⊢
      by_cases hname : (s.drop i).drop (nameStart (s.drop i)) = []
      · rwa [if_pos hname, if_pos hname]
      rw [if_neg hname] at hfits hgrows ⊢
      rw [if_neg hname]
      rcases matching_cases dir ((s.drop i).drop (nameStart (s.drop i))) with ⟨hmatch, hsame'⟩ | hmatch
      · rw [hmatch, hsame', List.take_append_drop]
        exact hsame
      · have hstart : i + nameStart (s.drop i) ≤ s.length := by
          have hle : nameStart (s.drop i) ≤ (s.drop i).length := Nat.sub_le ..
          rw [List.length_drop] at hle
          omega
        have hlen (t : List UInt8) : (s.take (i + nameStart (s.drop i)) ++ t).length =
            i + nameStart (s.drop i) + t.length := by
          rw [List.length_append, List.length_take_of_le hstart]
        rw [← List.append_assoc, ← List.take_add] at hfits hgrows ⊢
        have hwrite := write_buffer hfits
        rw [hlen] at hfits hgrows hwrite
        simp only [hmatch, memcpy_buffer hstart hgrows hfits, Option.bind_some, hwrite]

/-- A name over the whole line. -/
theorem memcpy_extend {names : List (List UInt8)}
    (hfits : (extend names s).length ≤ FINSH_CMD_SIZE) :
    (match matching names s with
      | none => some (buffer s)
      | some name => memcpy (buffer s) 0 name name.length) = some (buffer (extend names s)) := by
  have hgrows := (isPrefix_extend names s).length_le
  rcases matching_cases names s with ⟨hmatch, hsame⟩ | hmatch
  · rw [hmatch, hsame]
  · simp only [hmatch]
    rw [memcpy_buffer (Nat.zero_le _) (by omega) (by omega), List.take_zero, List.nil_append]

theorem isPrefix_withPath (w : World) (s : List UInt8) : s <+: withPath w s := by
  rw [withPath]
  split
  · exact isPrefix_take_append (isPrefix_completedPath ..)
  · exact List.prefix_rfl

theorem withPath_plain (h : 0 ∉ s) : 0 ∉ withPath w s := by
  rw [withPath]
  split
  · refine fun hzero => (List.mem_append.mp hzero).elim (fun hz => h (List.mem_of_mem_take hz)) ?_
    exact completedPath_plain fun hz => h (List.mem_of_mem_drop hz)
  · exact h

theorem commands_plain (w : World) : ∀ name ∈ commands w.symbols, 0 ∉ name := by
  intro name hname
  obtain ⟨entry, hentry, rfl⟩ := List.mem_map.mp hname
  have hplain := w.symbol_names entry.1
    (List.mem_append_left _ (List.mem_map_of_mem (List.mem_filter.mp hentry).1))
  exact fun hzero => hplain (List.mem_of_mem_drop hzero)

theorem listed_plain (w : World) : ∀ name ∈ listed w.symbols, 0 ∉ name := by
  intro name hname
  refine w.symbol_names name ?_
  rcases List.mem_append.mp hname with hname | hname
  · obtain ⟨entry, hentry, rfl⟩ := List.mem_map.mp hname
    exact List.mem_append_left _ (List.mem_map_of_mem (List.mem_filter.mp hentry).1)
  · exact List.mem_append_right _ hname

theorem completion_plain (h : 0 ∉ s) : 0 ∉ completion w s := by
  rw [completion]
  split_ifs
  · exact List.not_mem_nil
  · exact extend_plain (commands_plain w) (withPath_plain h)
  · exact extend_plain (listed_plain w) h

/-- What the code makes of the buffer of a line is the buffer of the completed line. -/
theorem shell_auto_complete_buffer (hplain : 0 ∉ s) (hlen : s.length ≤ FINSH_CMD_SIZE)
    (hfits : (completion w s).length ≤ FINSH_CMD_SIZE) :
    shell_auto_complete w (buffer s) = some (buffer (completion w s)) := by
  have hread := cstrAt_buffer hplain hlen (Nat.zero_le _)
  rw [List.drop_zero] at hread
  by_cases hempty : s = []
  · subst hempty
    simp [shell_auto_complete, msh_auto_complete, list_prefix, hread, completion]
  cases hmsh : w.msh_is_used with
  | false =>
    simp only [completion, hempty, hmsh, Bool.false_eq_true, if_false] at hfits ⊢
    simp only [shell_auto_complete, hmsh, list_prefix, hread, hempty, Option.bind_eq_bind,
      Option.bind_some, Bool.false_eq_true, if_false]
    exact memcpy_extend hfits
  | true =>
    simp only [completion, hempty, hmsh, if_false, if_true] at hfits ⊢
    have hpath : (withPath w s).length ≤ FINSH_CMD_SIZE :=
      (isPrefix_extend (commands w.symbols) (withPath w s)).length_le.trans hfits
    have hread' := cstrAt_buffer (withPath_plain (w := w) hplain) hpath (Nat.zero_le _)
    rw [List.drop_zero] at hread'
    simp only [shell_auto_complete, hmsh, msh_auto_complete, hread, hempty, Option.bind_eq_bind,
      Option.bind_some, if_false, if_true]
    cases hspace : lastSpace s s.length with
    | none =>
      have hsame : withPath w s = s := by rw [withPath, hspace]
      rw [hsame] at hfits ⊢
      exact memcpy_extend hfits
    | some ptr =>
      have hline : withPath w s = s.take (ptr + 1) ++ completedPath w (s.drop (ptr + 1)) := by
        rw [withPath, hspace]
      have hstep := msh_auto_complete_path_buffer hplain (lastSpace_lt hspace) (hline ▸ hpath)
      rw [← hline] at hstep
      simp only [hstep, hread', Option.bind_some]
      exact memcpy_extend hfits

end Complete

end Ab32Vg1.Finsh.Shell
