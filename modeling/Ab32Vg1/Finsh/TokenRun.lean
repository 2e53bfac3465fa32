import Ab32Vg1.Finsh.Token

/-! Reading tokens moves on in the line or is at its end, except where a name runs up to the end of
the line: there reading starts again. -/

namespace Ab32Vg1.Finsh

/-- Reading went `k` characters on, or is at the end; an error that is set stays. -/
structure Moves (k : Int) (t t' : Token) : Prop where
  line : t'.line = t.line
  eof : t'.eof = false → t.eof = false
  position : t'.eof = false → (t.position : Int) + k ≤ t'.position
  bound : t.position ≤ t.line.length → t'.position ≤ t'.line.length
  errno : t.errno ≠ FINSH_ERROR_OK → t'.errno ≠ FINSH_ERROR_OK
  replay : t'.replay = t.replay

namespace Moves

variable {j k : Int} {t t1 t' : Token}

theorem refl (t : Token) : Moves 0 t t := ⟨rfl, id, fun _ => by omega, id, id, rfl⟩

theorem trans (h : Moves k t t1) (h' : Moves j t1 t') : Moves (k + j) t t' where
  line := h'.line.trans h.line
  eof he := h.eof (h'.eof he)
  position he := by
    have h1 := h.position (h'.eof he)
    have h2 := h'.position he
    omega
  bound hb := h'.bound (h.bound hb)
  errno he := h'.errno (h.errno he)
  replay := h'.replay.trans h.replay

theorem mono (h : Moves k t t') (hj : j ≤ k) : Moves j t t' where
  line := h.line
  eof := h.eof
  position he := by
    have := h.position he
    omega
  bound := h.bound
  errno := h.errno
  replay := h.replay

/-- Fields that reading does not look at. -/
theorem congr {t'' : Token} (h : Moves k t t') (hl : t''.line = t'.line) (he : t''.eof = t'.eof)
    (hp : t''.position = t'.position) (hn : t''.errno = t'.errno) (hr : t''.replay = t'.replay) :
    Moves k t t'' where
  line := hl.trans h.line
  eof h0 := h.eof (he ▸ h0)
  position h0 := by rw [hp]; exact h.position (he ▸ h0)
  bound hb := by rw [hp, hl]; exact h.bound hb
  errno h0 := by rw [hn]; exact h.errno h0
  replay := hr.trans h.replay

/-- At the end of the line. -/
theorem of_eof (he : t'.eof = true) (hl : t'.line = t.line) (hp : t'.position = 0)
    (hn : t'.errno = t.errno) (hr : t'.replay = t.replay) : Moves k t t' where
  line := hl
  eof h0 := by rw [he] at h0; cases h0
  position h0 := by rw [he] at h0; cases h0
  bound _ := by omega
  errno h0 := by rw [hn]; exact h0
  replay := hr

theorem error {e : Nat} (h : Moves k t t') (he : e ≠ FINSH_ERROR_OK) : Moves k t (t'.setError e) where
  line := h.line
  eof := h.eof
  position := h.position
  bound := h.bound
  errno _ := he
  replay := h.replay

end Moves

variable {t t1 t' : Token} {ch last : UInt8} {chars : List UInt8}

/-! ### Characters -/

theorem next_char_moves (h : token_next_char t = (ch, t')) : Moves 1 t t' := by
  rw [token_next_char] at h
  split at h
  · next he =>
    cases h
    refine ⟨rfl, id, fun h0 => ?_, id, id, rfl⟩
    rw [he] at h0
    cases h0
  · next he =>
    split at h
    · cases h
      exact .of_eof rfl rfl rfl rfl rfl
    · next c hc =>
      split at h
      · cases h
        exact .of_eof rfl rfl rfl rfl rfl
      · cases h
        obtain ⟨hlt, -⟩ := List.getElem?_eq_some_iff.mp hc
        exact ⟨rfl, fun _ => by simpa using he, fun _ => by simp, fun _ => hlt, id, rfl⟩

theorem next_char_of_eof (h : t.eof = true) : token_next_char t = (0, t) := by
  rw [token_next_char, if_pos h]

/-- At the end there is no character. -/
theorem next_char_eof (h : token_next_char t = (ch, t')) (he : t'.eof = true) : ch = 0 := by
  rw [token_next_char] at h
  split at h
  · cases h
    rfl
  · next h0 =>
    split at h
    · cases h
      rfl
    · split at h
      · cases h
        rfl
      · cases h
        exact absurd he h0

theorem prev_char_moves (t : Token) : Moves (-1) t (token_prev_char t) := by
  rw [token_prev_char]
  split
  · exact (Moves.refl t).mono (by omega)
  · split
    · exact (Moves.refl t).mono (by omega)
    · refine ⟨rfl, id, fun _ => ?_, fun hb => ?_, id, rfl⟩
      · show (t.position : Int) + -1 ≤ ((t.position - 1 : Nat) : Int)
        omega
      · show t.position - 1 ≤ t.line.length
        omega

theorem prev_char_of_eof (h : t.eof = true) : token_prev_char t = t := by
  rw [token_prev_char, if_pos h]

/-- A character read can be put back. -/
theorem prev_char_of_next (h : token_next_char t = (ch, t')) (he : t'.eof = false) :
    token_prev_char t' = t := by
  rw [token_next_char] at h
  split at h
  · next h0 =>
    cases h
    rw [h0] at he
    cases he
  · split at h
    · cases h
      cases he
    · split at h
      · cases h
        cases he
      · cases h
        rw [token_prev_char, if_neg (ne_true_of_eq_false he), if_neg (Nat.succ_ne_zero _)]
        rfl

/-- The position at the end of the line. -/
theorem next_char_position (h : token_next_char t = (ch, t')) (hp : t.eof = true → t.position = 0)
    (he : t'.eof = true) : t'.position = 0 := by
  rw [token_next_char] at h
  split at h
  · cases h
    exact hp he
  · next h0 =>
    split at h
    · cases h
      rfl
    · split at h
      · cases h
        rfl
      · cases h
        exact absurd he h0

theorem write_moves (t : Token) (s : List UInt8) : Moves 0 t (t.write s) :=
  (Moves.refl t).congr rfl rfl rfl rfl rfl

theorem while_moves {c : UInt8 → Bool} {n : Nat}
    (h : token_while c n ch t = (chars, last, t')) : Moves chars.length t t' := by
  induction n generalizing ch chars t with
  | zero =>
    cases h
    exact Moves.refl _
  | succ n ih =>
    rw [token_while] at h
    split at h
    · rcases hn : token_next_char t with ⟨next, t1⟩
      rcases hw : token_while c n next t1 with ⟨chars', last', t2⟩
      simp only [hn, hw] at h
      cases h
      refine ((next_char_moves hn).trans (ih hw)).mono ?_
      simp only [List.length_cons]
      omega
    · cases h
      exact Moves.refl _

theorem while_position {c : UInt8 → Bool} {n : Nat}
    (h : token_while c n ch t = (chars, last, t')) (hp : t.eof = true → t.position = 0)
    (he : t'.eof = true) : t'.position = 0 := by
  induction n generalizing ch chars t with
  | zero =>
    cases h
    exact hp he
  | succ n ih =>
    rw [token_while] at h
    split at h
    · rcases hn : token_next_char t with ⟨next, t1⟩
      rcases hw : token_while c n next t1 with ⟨chars', last', t2⟩
      simp only [hn, hw] at h
      cases h
      exact ih hw fun he1 => next_char_position hn hp he1
    · cases h
      exact hp he

/-- The characters that a loop reads are of its class, and the line goes on where it reads none. -/
theorem while_chars {c : UInt8 → Bool} {n : Nat}
    (h : token_while c n ch t = (chars, last, t')) :
    (∀ x ∈ chars, c x = true) ∧ (chars = [] → t' = t) := by
  induction n generalizing ch chars t with
  | zero =>
    cases h
    exact ⟨fun x hx => (by cases hx), fun _ => rfl⟩
  | succ n ih =>
    rw [token_while] at h
    split at h
    · next hch =>
      rcases hn : token_next_char t with ⟨next, t1⟩
      rcases hw : token_while c n next t1 with ⟨chars', last', t2⟩
      simp only [hn, hw] at h
      cases h
      refine ⟨fun x hx => ?_, fun h0 => (by cases h0)⟩
      rcases List.mem_cons.mp hx with rfl | hx
      · exact hch
      · exact (ih hw).1 x hx
    · cases h
      exact ⟨fun x hx => (by cases hx), fun _ => rfl⟩

/-- The characters left to read. -/
def Token.left (t : Token) : Nat :=
  if t.eof then 0 else t.line.length - t.position + 1

/-- A loop ends with a character that is not of its class, given turns for the characters left. -/
theorem while_last {c : UInt8 → Bool} (hc : c 0 = false) {n : Nat} (hn : ch = 0 ∨ t.left < n)
    (h : token_while c n ch t = (chars, last, t')) : c last = false := by
  induction n generalizing ch chars t with
  | zero =>
    cases h
    rcases hn with rfl | hn
    · exact hc
    · omega
  | succ n ih =>
    rw [token_while] at h
    split at h
    · next hch =>
      rcases hx : token_next_char t with ⟨next, t1⟩
      rcases hw : token_while c n next t1 with ⟨chars', last', t2⟩
      simp only [hx, hw] at h
      cases h
      refine ih ?_ hw
      cases he : t1.eof with
      | true => exact .inl (next_char_eof hx he)
      | false =>
        refine .inr ?_
        have hm := next_char_moves hx
        have hpos := hm.position he
        have hl : t1.line.length = t.line.length := by rw [hm.line]
        rcases hn with rfl | hn
        · rw [hc] at hch
          cases hch
        · rw [Token.left, if_neg (by simp [hm.eof he])] at hn
          rw [Token.left, if_neg (by simp [he])]
          have hlt : t.position < t.line.length := by
            rw [token_next_char, if_neg (by simp [hm.eof he])] at hx
            split at hx
            · cases hx
              cases he
            · next c hc => exact (List.getElem?_eq_some_iff.mp hc).1
          omega
    · next hch =>
      cases h
      simpa using hch

theorem trim_space_moves (t : Token) : Moves 0 t (token_trim_space t) := by
  rw [token_trim_space]
  rcases hn : token_next_char t with ⟨ch, t1⟩
  rcases hw : token_while is_space t1.turns ch t1 with ⟨chars, last, t2⟩
  simp only [hw]
  exact (((next_char_moves hn).trans (while_moves hw)).trans (prev_char_moves t2)).mono (by omega)

/-! ### Tokens -/

/-- A name that is read from here runs up to the end of the line. -/
def NameAtEnd (t : Token) : Bool :=
  let (ch, t) := token_next_char (token_trim_space t)
  !t.eof && !is_digit ch &&
    (token_while (fun ch => !is_separator ch) t.turns ch (t.write [0])).2.2.eof

theorem cstr_write_nul (t : Token) : cstr (t.write [0]).string = [] := rfl

/-- A name in the buffer. -/
theorem cstr_write_name {name : List UInt8} (h : ∀ x ∈ name, !is_separator x) (t : Token) :
    cstr (t.write (name ++ [0])).string = name := by
  rw [cstr, Token.write, List.append_assoc, List.takeWhile_append_of_pos]
  · exact List.append_nil name
  · intro x hx
    have h0 := h x hx
    rw [decide_eq_true_eq]
    rintro rfl
    exact absurd h0 (by decide)

/-- Where no name runs up to the end, reading a name moves on. -/
theorem get_string_moves (hn : NameAtEnd t = false)
    (h : token_get_string (token_trim_space t) = some t') :
    Moves 0 t t' ∧ (t'.eof = false → cstr t'.string ≠ [] → Moves 1 t t') := by
  have htrim := trim_space_moves t
  rw [NameAtEnd] at hn
  rw [token_get_string] at h
  rcases hx : token_next_char (token_trim_space t) with ⟨ch, t1⟩
  have h1 := htrim.trans (next_char_moves hx)
  simp only [hx] at hn h
  split at h
  · next he =>
    cases h
    exact ⟨h1.mono (by omega), fun h0 => by rw [he] at h0; cases h0⟩
  · next he =>
    split at h
    · cases h
      refine ⟨((h1.trans (write_moves t1 _)).trans (prev_char_moves _)).mono (by omega),
        fun _ hs => absurd ?_ hs⟩
      rw [token_prev_char]
      split
      · rfl
      · split <;> rfl
    · next hd =>
      rcases hw : token_while (fun ch => !is_separator ch) t1.turns ch (t1.write [0]) with
        ⟨name, last, t2⟩
      simp only [hw] at hn h
      split at h
      · cases h
      · cases h
        have he2 : t2.eof = false := by simpa [he, hd] using hn
        have hm : Moves (1 + name.length - 1) t
            ((token_prev_char { t2 with eof := false }).write (name ++ [0])) := by
          have hs2 : { t2 with eof := false } = t2 := by rw [← he2]
          rw [hs2]
          exact ((((h1.trans (write_moves t1 [0])).trans (while_moves hw)).trans
            (prev_char_moves t2)).trans (write_moves _ _)).mono (by omega)
        refine ⟨hm.mono (by omega), fun _ hs => hm.mono ?_⟩
        cases name with
        | nil => exact absurd rfl hs
        | cons c name => simp only [List.length_cons]; omega

/-- Where a name runs up to the end, the position is at the start again. -/
theorem get_string_back (hn : NameAtEnd t = true) (h : token_run t = some t') :
    t'.eof = false ∧ t'.position = 0 := by
  rw [NameAtEnd] at hn
  rw [token_run, token_get_string] at h
  rcases hx : token_next_char (token_trim_space t) with ⟨ch, t1⟩
  simp only [hx, Bool.and_eq_true, Bool.not_eq_true'] at hn h
  obtain ⟨⟨he, hd⟩, hw⟩ := hn
  rw [he, hd, if_neg Bool.false_ne_true, if_neg Bool.false_ne_true] at h
  rcases hw' : token_while (fun ch => !is_separator ch) t1.turns ch (t1.write [0]) with
    ⟨name, last, t2⟩
  simp only [hw'] at hw h
  obtain ⟨hall, hnil⟩ := while_chars hw'
  have hne : name ≠ [] := by
    intro h0
    rw [hnil h0] at hw
    exact absurd hw (by simp [Token.write, he])
  have hp : t2.position = 0 :=
    while_position hw' (fun h0 => absurd h0 (by simp [Token.write, he])) hw
  by_cases hfit : FINSH_STRING_MAX ≤ name.length
  · rw [if_pos hfit] at h
    cases h
  · have hprev : token_prev_char { t2 with eof := false } = { t2 with eof := false } := by
      rw [token_prev_char, if_neg Bool.false_ne_true, if_pos hp]
    rw [if_neg hfit, hprev, Option.bind_eq_bind, Option.bind_some, if_neg (by simp [Token.write]),
      cstr_write_name hall, if_pos hne] at h
    cases h
    exact ⟨rfl, hp⟩

theorem suffix_moves (ch : UInt8) (t : Token) : Moves (-1) t (numberSuffix ch t) := by
  rw [numberSuffix]
  split
  · exact Moves.mono (k := 0) ((Moves.refl t).congr rfl rfl rfl rfl rfl) (by omega)
  · have hm : Moves 0 t { t with current_token := .value_int } := (Moves.refl t).congr rfl rfl rfl rfl rfl
    exact (hm.trans (prev_char_moves _)).mono (by omega)

theorem specNumber_moves {c : UInt8 → Bool} {shift : UInt32}
    (h : specNumber c shift ch t = some t') : Moves (-1) t t' := by
  rw [specNumber] at h
  rcases hw : token_while c t.turns ch t with ⟨buf, last, t1⟩
  simp only [hw] at h
  split at h
  · cases h
  · cases h
    have hm : Moves 0 t { t1 with int_value := token_spec_number buf shift } :=
      Moves.mono (k := buf.length) ((while_moves hw).congr rfl rfl rfl rfl rfl) (by omega)
    exact (hm.trans (suffix_moves last _)).mono (by omega)

theorem proc_number_moves (hd : is_digit (token_next_char t).1 = true)
    (h : token_proc_number t = some t') : Moves 1 t t' := by
  rw [token_proc_number] at h
  rcases hx : token_next_char t with ⟨ch, t1⟩
  have h1 := next_char_moves hx
  simp only [hx] at h hd
  split at h
  · rcases hx2 : token_next_char t1 with ⟨ch2, t2⟩
    have h2 := h1.trans (next_char_moves hx2)
    simp only [hx2] at h
    split at h
    · rcases hx3 : token_next_char t2 with ⟨ch3, t3⟩
      simp only [hx3] at h
      exact ((h2.trans (next_char_moves hx3)).trans (specNumber_moves h)).mono (by omega)
    · split at h
      · rcases hx3 : token_next_char t2 with ⟨ch3, t3⟩
        simp only [hx3] at h
        exact ((h2.trans (next_char_moves hx3)).trans (specNumber_moves h)).mono (by omega)
      · split at h
        · exact (h2.trans (specNumber_moves h)).mono (by omega)
        · cases h
          exact Moves.mono (k := 1 + 1 + -1) ((h2.trans (prev_char_moves t2)).congr rfl rfl rfl rfl rfl)
            (by omega)
  · rcases hw : token_while is_digit t1.turns ch t1 with ⟨digits, last, t2⟩
    simp only [hw] at h
    cases h
    have hlen : 1 ≤ digits.length := by
      rw [Token.turns, token_while, if_pos hd] at hw
      cases hw
      simp only [List.length_cons]
      omega
    have hm : Moves (1 + digits.length) t
        { t2 with int_value := digits.foldl (fun v ch => v * 10 + (UInt32.ofNat ch.toNat - 48)) 0 } :=
      (h1.trans (while_moves hw)).congr rfl rfl rfl rfl rfl
    exact (hm.trans (suffix_moves last _)).mono (by omega)

theorem charValue_moves {c : UInt8} (h : charValue t = some (c, t')) : Moves 0 t t' := by
  rw [charValue] at h
  rcases hx : token_next_char t with ⟨ch, t1⟩
  have h1 := next_char_moves hx
  simp only [hx] at h
  split at h
  · rcases hx2 : token_next_char t1 with ⟨ch2, t2⟩
    have h2 := h1.trans (next_char_moves hx2)
    simp only [hx2] at h
    split at h
    · cases h
      exact h2.mono (by omega)
    · split at h
      · cases h
        exact h2.mono (by omega)
      · rcases hw : token_while is_digit t2.turns ch2 t2 with ⟨digits, last, t3⟩
        simp only [hw] at h
        split at h
        · cases h
        · cases h
          exact ((h2.trans (while_moves hw)).trans (prev_char_moves t3)).mono (by omega)
  · cases h
    exact h1.mono (by omega)

theorem proc_char_moves (h : token_proc_char t = some t') : Moves 0 t t' := by
  obtain ⟨⟨c, t1⟩, hc, h⟩ := Option.map_eq_some_iff.mp h
  have h1 := charValue_moves hc
  rcases hx : token_next_char t1 with ⟨ch, t2⟩
  have h2 := h1.trans (next_char_moves hx)
  simp only [hx] at h
  split at h
  · cases h
    exact Moves.mono (k := 0 + 1) (h2.congr rfl rfl rfl rfl rfl) (by omega)
  · cases h
    have h3 := (h2.error (e := FINSH_ERROR_EXPECT_CHAR) (by decide)).trans (prev_char_moves _)
    exact Moves.mono (k := 0 + 1 + -1) (h3.congr rfl rfl rfl rfl rfl) (by omega)

theorem proc_escape_moves (h : token_proc_escape t = (ch, t')) : Moves 0 t t' := by
  rw [token_proc_escape] at h
  rcases hx : token_next_char t with ⟨ch1, t1⟩
  have h1 := next_char_moves hx
  simp only [hx] at h
  split at h
  · cases h
    exact h1.mono (by omega)
  split at h
  · cases h
    exact h1.mono (by omega)
  split at h
  · cases h
    exact h1.mono (by omega)
  split at h
  · cases h
    exact h1.mono (by omega)
  split at h
  · rcases hx2 : token_next_char t1 with ⟨ch2, t2⟩
    rcases hw : token_while is_xdigit t2.turns ch2 t2 with ⟨digits, last, t3⟩
    simp only [hx2, hw] at h
    cases h
    exact (((h1.trans (next_char_moves hx2)).trans (while_moves hw)).trans
      (prev_char_moves t3)).mono (by omega)
  split at h
  · rcases hw : token_while is_odigit t1.turns ch1 t1 with ⟨digits, last, t2⟩
    simp only [hw] at h
    cases h
    exact ((h1.trans (while_moves hw)).trans (prev_char_moves t2)).mono (by omega)
  · cases h
    exact h1.mono (by omega)

theorem proc_string_moves (n : Nat) (s : List UInt8) (t : Token) :
    Moves 0 t (token_proc_string n s t) := by
  induction n generalizing s t with
  | zero => exact write_moves t s
  | succ n ih =>
    rw [token_proc_string]
    rcases hx : token_next_char t with ⟨ch, t1⟩
    have h1 := (next_char_moves hx).mono (show (0 : Int) ≤ 1 by decide)
    simp only
    split
    · exact (h1.trans (write_moves t1 s)).error (by decide)
    split
    · rcases he : token_proc_escape t1 with ⟨c, t2⟩
      exact (h1.trans (proc_escape_moves he)).trans (ih _ t2)
    split
    · exact h1.trans (write_moves t1 _)
    · exact h1.trans (ih _ t1)

/-- A token that is no name takes a character. -/
theorem switch_moves (h : token_switch t = some t') : Moves 1 t t' := by
  rw [token_switch] at h
  rcases hx : token_next_char t with ⟨ch, t1⟩
  have h1 := next_char_moves hx
  simp only [hx] at h
  split at h
  · cases h
    exact h1.congr rfl rfl rfl rfl rfl
  split at h
  · next twice once _ =>
    rcases hx2 : token_next_char t1 with ⟨ch2, t2⟩
    have h2 := h1.trans (next_char_moves hx2)
    simp only [hx2] at h
    split at h
    · cases h
      exact Moves.mono (k := 1 + 1) (h2.congr rfl rfl rfl rfl rfl) (by omega)
    · cases h
      exact Moves.mono (k := 1 + 1 + -1) ((h2.trans (prev_char_moves t2)).congr rfl rfl rfl rfl rfl) (by omega)
  split at h
  · obtain ⟨t2, hc, rfl⟩ := Option.map_eq_some_iff.mp h
    exact Moves.mono (k := 1 + 0) ((h1.trans (proc_char_moves hc)).congr rfl rfl rfl rfl rfl) (by omega)
  split at h
  · cases h
    exact Moves.mono (k := 1 + 0) ((h1.trans (proc_string_moves _ _ t1)).congr rfl rfl rfl rfl rfl) (by omega)
  split at h
  · next hd =>
    have he : t1.eof = false := by
      cases he : t1.eof with
      | false => rfl
      | true =>
        rw [next_char_eof hx he] at hd
        exact absurd hd (by decide)
    rw [prev_char_of_next hx he] at h
    exact proc_number_moves (by rw [hx]; exact hd) h
  · cases h
    exact Moves.congr (h1.error (e := FINSH_ERROR_UNKNOWN_TOKEN) (by decide)) rfl rfl rfl rfl rfl

/-- Reading a token moves on, or is at the end, where no name runs up to the end. -/
theorem token_run_moves (hn : NameAtEnd t = false) (h : token_run t = some t') : Moves 1 t t' := by
  obtain ⟨t1, hs, h⟩ := Option.bind_eq_some_iff.mp h
  obtain ⟨h0, h1⟩ := get_string_moves hn hs
  split at h
  · next he =>
    cases h
    exact ⟨h0.line, fun hf => absurd he (by simp [show t1.eof = false from hf]),
      fun hf => absurd he (by simp [show t1.eof = false from hf]), h0.bound, h0.errno, h0.replay⟩
  · next he =>
    split at h
    · next hname =>
      cases h
      exact (h1 (by simpa using he) hname).congr rfl rfl rfl rfl rfl
    · exact (h0.trans (switch_moves h)).mono (by omega)

/-- At the end every token is the end. -/
theorem token_run_of_eof (h : t.eof = true) : token_run t = some { t with current_token := .eof } := by
  have hw (n : Nat) : token_while is_space n 0 t = ([], 0, t) := by cases n <;> rfl
  have htrim : token_trim_space t = t := by
    rw [token_trim_space, next_char_of_eof h]
    simp only [hw, prev_char_of_eof h]
  rw [token_run, htrim, token_get_string, next_char_of_eof h]
  simp [h]

theorem get_string_errno (h : token_get_string t = some t') (he : t.errno ≠ FINSH_ERROR_OK) :
    t'.errno ≠ FINSH_ERROR_OK := by
  rw [token_get_string] at h
  rcases hx : token_next_char t with ⟨ch, t1⟩
  have h1 := (next_char_moves hx).errno he
  simp only [hx] at h
  split at h
  · cases h
    exact h1
  split at h
  · cases h
    exact (prev_char_moves _).errno h1
  · rcases hw : token_while (fun ch => !is_separator ch) t1.turns ch (t1.write [0]) with
      ⟨name, last, t2⟩
    simp only [hw] at h
    split at h
    · cases h
    · cases h
      exact (prev_char_moves { t2 with eof := false }).errno ((while_moves hw).errno h1)

/-- An error that is set stays. -/
theorem token_run_errno (h : token_run t = some t') (he : t.errno ≠ FINSH_ERROR_OK) :
    t'.errno ≠ FINSH_ERROR_OK := by
  obtain ⟨t1, hs, h⟩ := Option.bind_eq_some_iff.mp h
  have h1 := get_string_errno hs ((trim_space_moves t).errno he)
  split at h
  · cases h
    exact h1
  · split at h
    · cases h
      exact h1
    · exact (switch_moves h).errno h1

end Ab32Vg1.Finsh
