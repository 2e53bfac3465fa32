import Ab32Vg1.Kernel.Format

/-! What `rt_vsnprintf` leaves in a buffer of any size: the text of the format, cut to the size. -/

namespace Ab32Vg1.Kernel

open ProofKit

/-! ### The formatter does the same with every sink -/

section

variable {σ τ : Type} {put : σ → Char → σ} {put' : τ → Char → τ} {h : σ → τ}

theorem putNumber_hom (hom : SinkHom put put' h) (tmp : List Char) (sign : Option Char)
    (s precision : Int) (type : FormatFlags) (o : σ) :
    putNumber put' tmp sign s precision type (h o) = h (putNumber put tmp sign s precision type o) := by
  unfold putNumber
  cases sign <;> cases type.ZEROPAD <;> cases type.LEFT <;> by_cases hp : precision = 0 <;>
    simp [hp, hom.fill, hom.foldl, hom _ _, -List.foldl_reverse]

theorem print_number_hom (hom : SinkHom put put' h) (num : BitVec 32) (base : Nat) (s precision : Int)
    (type : FormatFlags) (o : σ) : print_number put' num base s precision type (h o) =
      (print_number put num base s precision type o).map h := by
  unfold print_number
  simp only [putNumber_hom hom, Option.map_map, Function.comp_def]

theorem convertChar_hom (hom : SinkHom put put' h) (d : Directive) (w : BitVec 32) (o : σ) :
    convertChar put' d w (h o) = h (convertChar put d w o) := by
  unfold convertChar
  cases d.flags.LEFT <;> simp [hom.fill, hom _ _]

theorem convertString_hom (hom : SinkHom put put' h) (d : Directive) (s : List Char) (o : σ) :
    convertString put' d s (h o) = h (convertString put d s o) := by
  unfold convertString
  cases d.flags.LEFT <;> simp [hom.fill, hom.foldl]

theorem convertPointer_hom (hom : SinkHom put put' h) (d : Directive) (w : BitVec 32) (o : σ) :
    convertPointer put' d w (h o) = (convertPointer put d w o).map h := by
  unfold convertPointer
  split <;> exact print_number_hom hom ..

theorem convertNumber_hom (hom : SinkHom put put' h) (d : Directive) (w : BitVec 32) (base : Nat)
    (o : σ) : convertNumber put' d w base (h o) = (convertNumber put d w base o).map h :=
  print_number_hom hom ..

theorem convert_hom (hom : SinkHom put put' h) (strings : Strings) (d : Directive) (conversion : Char)
    (args : List (BitVec 32)) (o : σ) : convert put' strings d conversion args (h o) =
      (convert put strings d conversion args o).map fun (o, args) => (h o, args) := by
  unfold convert
  cases args with
  | nil =>
    split <;> simp [va_arg, hom _ _]
  | cons w args =>
    split <;> simp [va_arg, hom _ _, convertChar_hom hom, convertString_hom hom, convertPointer_hom hom,
      convertNumber_hom hom, Option.map_bind, Option.bind_map]

theorem formatLoop_hom (hom : SinkHom put put' h) (strings : Strings) (fmt : List Char)
    (args : List (BitVec 32)) (o : σ) :
    formatLoop put' strings fmt args (h o) = (formatLoop put strings fmt args o).map h := by
  fun_induction formatLoop put strings fmt args o with
  | case1 =>
    unfold formatLoop
    rfl
  | case2 args o c fmt hc ih =>
    rw [formatLoop, if_pos hc, ← hom]
    exact ih
  | case3 args o c fmt hc hd =>
    rw [formatLoop, if_neg hc, hd]
    rfl
  | case4 args o c fmt hc d args' hd =>
    rw [formatLoop, if_neg hc, hd, ← hom]
    rfl
  | case5 args o c fmt hc d conversion rest args' hd ih =>
    rw [formatLoop, if_neg hc, hd]
    dsimp only
    rw [convert_hom hom, Option.bind_map, Option.map_bind]
    congr 1
    funext r
    exact ih r.1 r.2

/-- What is put into a sink is the text of the format. -/
theorem formatLoop_text (put : σ → Char → σ) {strings : Strings} {fmt : List Char}
    {args : List (BitVec 32)} {text : List Char} (htext : formatText strings fmt args = some text)
    (o : σ) : formatLoop put strings fmt args o = some (text.foldl put o) := by
  have hhom := formatLoop_hom (appendHom put o) strings fmt args []
  rw [List.foldl_nil] at hhom
  rw [hhom, show formatLoop append strings fmt args [] = some text from htext, Option.map_some]

end

/-! ### The cursor -/

section

variable {o : Cursor} {stop a : Nat} {text : List Char}

theorem foldl_put_str (h : o.str < 2 ^ 32) :
    (text.foldl (Cursor.put stop) o).str = (o.str + text.length) % 2 ^ 32 := by
  induction text generalizing o with
  | nil => exact (Nat.mod_eq_of_lt h).symm
  | cons c text ih =>
    rw [List.foldl_cons, ih (Nat.mod_lt _ (by decide)), Cursor.put, add32, List.length_cons]
    dsimp only
    omega

/-- As long as the cursor does not run past the end of the address space, the characters stand one behind
the other, up to the end of the buffer. -/
theorem foldl_put_memory (h : o.str + text.length < 2 ^ 32) :
    (text.foldl (Cursor.put stop) o).memory a =
      if o.str ≤ a ∧ a < o.str + text.length ∧ a < stop then text.getD (a - o.str) NUL
      else o.memory a := by
  induction text generalizing o with
  | nil =>
    rw [List.foldl_nil, if_neg]
    rw [List.length_nil]
    omega
  | cons c text ih =>
    rw [List.length_cons] at h
    have hstr : (o.put stop c).str = o.str + 1 := Nat.mod_eq_of_lt (by omega)
    rw [List.foldl_cons, ih (by rw [hstr]; omega), hstr, List.length_cons]
    by_cases ha : a = o.str
    · subst ha
      rw [if_neg (by omega), Nat.sub_self, List.getD_cons_zero]
      unfold Cursor.put
      dsimp only
      by_cases hstop : o.str < stop
      · rw [if_pos hstop, if_pos (by omega), Function.update_self]
      · rw [if_neg hstop, if_neg (by omega)]
    · have hkeep : (o.put stop c).memory a = o.memory a := by
        unfold Cursor.put
        dsimp only
        split
        · exact Function.update_of_ne ha ..
        · rfl
      rw [hkeep]
      by_cases hin : o.str + 1 ≤ a ∧ a < o.str + 1 + text.length ∧ a < stop
      · rw [if_pos hin, if_pos (by omega), show a - o.str = a - (o.str + 1) + 1 by omega,
          List.getD_cons_succ]
      · rw [if_neg hin, if_neg (by omega)]

end

/-! ### The buffer -/

/-- What a call has to leave and return: nothing outside the buffer is written, and the buffer has as much
of the text as fits in front of a NUL. -/
structure Truncated (buf size : Nat) (text : List Char) (memory memory' : Nat → Char) (r : Int) : Prop where
  inside : ∀ a, a < buf ∨ buf + size ≤ a → memory' a = memory a
  chars : ∀ i < min (size - 1) text.length, memory' (buf + i) = text.getD i NUL
  nul : memory' (buf + min (size - 1) text.length) = NUL
  full : r = text.length

/-- In whatever memory. -/
def Truncates (strings : Strings) (buf size : Nat) (fmt : List Char) (args : List (BitVec 32))
    (text : List Char) : Prop :=
  ∀ memory, ∃ memory' r, rt_vsnprintf strings buf size memory fmt args = some (memory', r) ∧
    Truncated buf size text memory memory' r

section

variable {strings : Strings} {buf size : Nat} {fmt text : List Char} {args : List (BitVec 32)}

/-- Memory after the NUL is written. -/
def terminated (o : Cursor) (stop : Nat) : Nat → Char :=
  if o.str < stop then Function.update o.memory o.str NUL else Function.update o.memory (stop - 1) NUL

theorem rt_vsnprintf_eq (hsize : 1 ≤ size) (hbuf : buf + size < 2 ^ 32)
    (htext : formatText strings fmt args = some text) (memory : Nat → Char) :
    rt_vsnprintf strings buf size memory fmt args =
      some (terminated (text.foldl (Cursor.put (buf + size)) ⟨buf, memory⟩) (buf + size),
        int32 (text.length % 2 ^ 32 : Nat)) := by
  have hstop : add32 buf size = buf + size := Nat.mod_eq_of_lt hbuf
  have hlen : sub32 (text.foldl (Cursor.put (buf + size)) ⟨buf, memory⟩).str buf =
      text.length % 2 ^ 32 := by
    rw [foldl_put_str (show buf < 2 ^ 32 by omega), sub32]
    dsimp only
    omega
  unfold rt_vsnprintf
  simp only [hstop, if_neg (show ¬buf + size < buf by omega), formatLoop_text _ htext,
    Option.bind_eq_bind, Option.bind_some, Option.pure_def, hlen, if_pos (show 0 < size by omega)]
  rfl

theorem truncated_of_short (hsize : 1 ≤ size) (hlen : text.length < 2 ^ 31)
    (hend : buf + text.length < 2 ^ 32) (memory : Nat → Char) :
    Truncated buf size text memory
      (terminated (text.foldl (Cursor.put (buf + size)) ⟨buf, memory⟩) (buf + size))
      (int32 (text.length % 2 ^ 32 : Nat)) := by
  let o := text.foldl (Cursor.put (buf + size)) ⟨buf, memory⟩
  have hstr : o.str = buf + text.length :=
    (foldl_put_str (by dsimp only; omega)).trans (Nat.mod_eq_of_lt hend)
  have hmem : ∀ a, o.memory a = if buf ≤ a ∧ a < buf + text.length ∧ a < buf + size then
      text.getD (a - buf) NUL else memory a := fun a => foldl_put_memory hend
  -- the NUL stands behind the text, or at the end of the buffer
  have hnul : terminated o (buf + size) =
      Function.update o.memory (buf + min (size - 1) text.length) NUL := by
    unfold terminated
    rw [hstr]
    split
    · rw [Nat.min_eq_right (by omega)]
    · rw [Nat.min_eq_left (by omega), Nat.add_sub_assoc hsize]
  show Truncated buf size text memory (terminated o (buf + size)) _
  rw [hnul]
  refine ⟨fun a ha => ?_, fun i hi => ?_, Function.update_self .., ?_⟩
  · rw [Function.update_of_ne (by omega), hmem, if_neg (by omega)]
  · rw [Function.update_of_ne (by omega), hmem, if_pos (by omega), Nat.add_sub_cancel_left]
  · rw [Nat.mod_eq_of_lt (by omega), int32_natCast hlen]

/-- A text that runs past the end of the address space goes on at address 0. -/
theorem zero_written (hbuf : buf + size < 2 ^ 32) (hlen : text.length < 2 ^ 31)
    (hend : 2 ^ 32 ≤ buf + text.length) : ∃ v, ∀ memory : Nat → Char,
      terminated (text.foldl (Cursor.put (buf + size)) ⟨buf, memory⟩) (buf + size) 0 = v := by
  have hbuf0 : buf < 2 ^ 32 := by omega
  let k := 2 ^ 32 - buf
  have hfirst : ∀ memory : Nat → Char,
      ((text.take k).foldl (Cursor.put (buf + size)) ⟨buf, memory⟩).str = 0 := fun memory => by
    rw [foldl_put_str hbuf0, List.length_take]
    dsimp only
    omega
  have hsplit : ∀ memory : Nat → Char, text.foldl (Cursor.put (buf + size)) ⟨buf, memory⟩ =
      (text.drop k).foldl (Cursor.put (buf + size))
        ((text.take k).foldl (Cursor.put (buf + size)) ⟨buf, memory⟩) := fun memory => by
    rw [← List.foldl_append, List.take_append_drop]
  cases hrest : text.drop k with
  | nil =>
    refine ⟨NUL, fun memory => ?_⟩
    rw [hsplit, hrest, List.foldl_nil, terminated, hfirst, if_pos (by omega), Function.update_self]
  | cons c rest =>
    refine ⟨c, fun memory => ?_⟩
    have hlength := congrArg List.length hrest
    rw [List.length_drop, List.length_cons] at hlength
    rw [hsplit, hrest, List.foldl_cons]
    generalize hput : Cursor.put (buf + size) ((text.take k).foldl (Cursor.put (buf + size))
      ⟨buf, memory⟩) c = o
    have hstr : o.str = 1 := by
      rw [← hput, Cursor.put, hfirst]
      rfl
    have hzero : o.memory 0 = c := by
      rw [← hput, Cursor.put, hfirst]
      dsimp only
      rw [if_pos (by omega), Function.update_self]
    have hrun : o.str + rest.length < 2 ^ 32 := by
      rw [hstr]
      omega
    have hstr' : (rest.foldl (Cursor.put (buf + size)) o).str = 1 + rest.length := by
      rw [foldl_put_str (by omega), hstr]
      exact Nat.mod_eq_of_lt (by omega)
    have hkeep : (rest.foldl (Cursor.put (buf + size)) o).memory 0 = c := by
      rw [foldl_put_memory hrun, if_neg (by omega), hzero]
    unfold terminated
    split
    · rw [Function.update_of_ne (by omega), hkeep]
    · rw [Function.update_of_ne (by omega), hkeep]

/-- The buffer gets the text, cut to its size, and the length of the whole text is returned, exactly when
the length is an `rt_int32_t` and the cursor stays in the address space. -/
theorem rt_vsnprintf_truncates (hsize : 1 ≤ size) (hbuf : buf + size < 2 ^ 32)
    (htext : formatText strings fmt args = some text) :
    Truncates strings buf size fmt args text ↔ text.length < 2 ^ 31 ∧ buf + text.length < 2 ^ 32 := by
  constructor
  · intro h
    have hlen : text.length < 2 ^ 31 := by
      obtain ⟨memory', r, hr, ht⟩ := h fun _ => NUL
      rw [rt_vsnprintf_eq hsize hbuf htext] at hr
      obtain ⟨-, rfl⟩ := Prod.mk.inj (Option.some.inj hr)
      have := int32_lt (text.length % 2 ^ 32 : Nat)
      rw [ht.full] at this
      omega
    refine ⟨hlen, ?_⟩
    by_contra hend
    obtain ⟨v, hv⟩ := zero_written hbuf hlen (by omega)
    obtain ⟨memory', r, hr, ht⟩ := h fun _ => if v = NUL then 'a' else NUL
    rw [rt_vsnprintf_eq hsize hbuf htext] at hr
    obtain ⟨rfl, -⟩ := Prod.mk.inj (Option.some.inj hr)
    have hzero := ht.inside 0 (Or.inl (by omega))
    rw [hv] at hzero
    split at hzero
    · next heq =>
      rw [heq] at hzero
      exact absurd hzero (by decide)
    · next hne => exact hne hzero
  · rintro ⟨hlen, hend⟩ memory
    exact ⟨_, _, rt_vsnprintf_eq hsize hbuf htext memory, truncated_of_short hsize hlen hend memory⟩

end

theorem rt_vsnprintf_truncates_four :
    Truncates (fun _ => none) 0x10000 4 "%+05d".toList [7] "+0007".toList :=
  (rt_vsnprintf_truncates (by decide) (by decide) (by decide +kernel)).mpr (by decide)

/-- A character that is wider than one. -/
theorem convertChar_wide {d : Directive} {n : Nat} (hleft : d.flags.LEFT = false)
    (hn : int32 (d.field_width - 1) = (n + 1 : Nat)) (w : BitVec 32) (o : List Char) :
    convertChar append d w o = o ++ List.replicate (n + 1) ' ' ++ [Char.ofNat (w.toNat % 256)] := by
  unfold convertChar
  simp only [hleft, if_true, hn]
  have hzero : (int32 (0 - 1)).toNat = 0 := by decide
  rw [if_pos (by omega), Int.toNat_natCast, hzero, fill_append, fill_append, List.replicate_zero,
    List.append_nil, append]

/-- Two characters, the first of them padded to the greatest width. -/
theorem wide_text : ∃ text, formatText (fun _ => none) "%2147483647cc".toList [97] = some text ∧
    text.length = 2 ^ 31 := by
  have hread : readDirective "2147483647cc".toList [97] =
      some (⟨{}, 2147483647, -1, none⟩, ['c', 'c'], [97]) := by decide +kernel
  have hwidth : int32 (2147483647 - 1) = (2147483645 + 1 : Nat) := by decide +kernel
  let d : Directive := ⟨{}, 2147483647, -1, none⟩
  have hconvert : convert append (fun _ => none) d 'c' [97] [] = some (convertChar append d 97 [], []) := rfl
  have hfmt : "%2147483647cc".toList = '%' :: "2147483647cc".toList := by decide +kernel
  refine ⟨convertChar append d 97 [] ++ ['c'], ?_, ?_⟩
  · rw [formatText, hfmt, formatLoop, if_neg (by decide), hread]
    dsimp only
    rw [hconvert, Option.bind_some]
    dsimp only
    rw [formatLoop, if_pos (by decide), formatLoop]
    rfl
  · rw [convertChar_wide rfl hwidth]
    rw [List.length_append, List.length_append, List.length_append, List.length_replicate,
      List.length_nil, List.length_singleton, List.length_singleton]
    norm_num

theorem rt_vsnprintf_truncates_fails : ¬∀ strings buf size fmt args text, 1 ≤ size →
    buf + size < 2 ^ 32 → formatText strings fmt args = some text →
      Truncates strings buf size fmt args text := by
  intro h
  obtain ⟨text, htext, hlen⟩ := wide_text
  obtain ⟨memory', r, hr, ht⟩ :=
    h _ 0x10000 16 _ _ text (by decide) (by decide) htext fun _ => NUL
  rw [rt_vsnprintf_eq (by decide) (by decide) htext] at hr
  obtain ⟨-, rfl⟩ := Prod.mk.inj (Option.some.inj hr)
  have := int32_lt (text.length % 2 ^ 32 : Nat)
  rw [ht.full, hlen] at this
  exact absurd this (by decide)

end Ab32Vg1.Kernel
