import Ab32Vg1.Finsh.Literal
import Ab32Vg1.Finsh.TokenRun
import Mathlib.Data.List.Induction
import Mathlib.Data.Nat.Basic

/-! Which literals the tokenizer reads. -/

namespace Ab32Vg1.Finsh

/-! ### Moving in a line -/

section Moving

variable {self : Token} {before rest chars : List UInt8} {ch : UInt8} {c : UInt8 → Bool}

namespace Token

def goto (self : Token) (position : Nat) : Token := { self with position := position }

/-- The state after a look at the next character. -/
def peek (self : Token) (rest : List UInt8) : Token :=
  if AtEnd rest then { self with eof := true, position := 0 } else self

@[simp] theorem goto_self (self : Token) : self.goto self.position = self := rfl

@[simp] theorem goto_goto (self : Token) (j k : Nat) : (self.goto j).goto k = self.goto k := rfl

theorem peek_cons (self : Token) (rest : List UInt8) (hnl : ch ≠ chr '\n') :
    self.peek (ch :: rest) = self := if_neg fun hend => hnl (hend ch rfl)

end Token

namespace At

/-- Behind some of what is left. -/
theorem skip (h : At self before (chars ++ rest)) :
    At (self.goto (before.length + chars.length)) (before ++ chars) rest where
  line := by rw [List.append_assoc]; exact h.line
  position := List.length_append.symm
  eof := h.eof

theorem cons (h : At self before (ch :: rest)) :
    At (self.goto (before.length + 1)) (before ++ [ch]) rest := by
  have hone : At self before ([ch] ++ rest) := h
  exact hone.skip

theorem next (h : At self before (ch :: rest)) (hnl : ch ≠ chr '\n') :
    token_next_char self = (ch, self.goto (before.length + 1)) := by
  have hread : self.line[self.position]? = some ch := by
    rw [h.line, h.position, List.getElem?_append_right (le_refl _), Nat.sub_self,
      List.getElem?_cons_zero]
  rw [token_next_char, if_neg (by simp [h.eof]), hread]
  simp only [hnl, if_false, h.position]
  rfl

/-- The character after a first one. -/
theorem next_second {a : UInt8} (h : At self before (a :: ch :: rest)) (hnl : ch ≠ chr '\n') :
    token_next_char (self.goto (before.length + 1)) = (ch, self.goto (before.length + 2)) := by
  have hread := h.cons.next hnl
  rwa [List.length_append, List.length_singleton, Token.goto_goto] at hread

theorem next_end (h : At self before rest) (hend : AtEnd rest) :
    token_next_char self = (0, { self with eof := true, position := 0 }) := by
  have hread : self.line[self.position]? = rest.head? := by
    rw [h.line, h.position, List.getElem?_append_right (le_refl _), Nat.sub_self,
      List.head?_eq_getElem?]
  rw [token_next_char, if_neg (by simp [h.eof]), hread]
  cases hrest : rest.head? with
  | none => rfl
  | some ch => simp [hend ch hrest]

/-- A character that was looked at is put back. -/
theorem prev (h : At self before rest) : token_prev_char (token_next_char self).2 = self.peek rest := by
  by_cases hend : AtEnd rest
  · rw [h.next_end hend, Token.peek, if_pos hend]
    rfl
  · rw [Token.peek, if_neg hend]
    cases rest with
    | nil => exact absurd (fun _ h => by cases h) hend
    | cons ch rest =>
      have hnl : ch ≠ chr '\n' := fun heq => hend fun x hx => by
        cases hx
        exact heq
      rw [h.next hnl, token_prev_char, if_neg (by simp [Token.goto, h.eof])]
      simp [Token.goto, ← h.position]

/-- What a look leaves is behind the characters read. -/
theorem behind_peek (h : At self before rest) : Behind (self.peek rest) before rest := by
  rw [Token.peek]
  split_ifs with hend
  · exact .inr ⟨hend, rfl⟩
  · exact .inl h

/-- The character read, where the one that is there is not of a class. -/
theorem next_not (h : At self before rest) (h0 : c 0 = false)
    (hstop : ∀ x ∈ rest.head?, c x = false) : c (token_next_char self).1 = false := by
  by_cases hend : AtEnd rest
  · rw [h.next_end hend]
    exact h0
  · cases rest with
    | nil => exact absurd (fun _ h => by cases h) hend
    | cons ch rest =>
      have hne : ch ≠ chr '\n' := fun heq => hend fun x hx => by
        cases hx
        exact heq
      rw [At.next h hne]
      exact hstop ch rfl

/-- There are turns for the characters of the line. -/
theorem lt_turns (h : At self before (chars ++ rest)) :
    chars.length < (token_next_char self).2.turns := by
  have hline : (token_next_char self).2.line = self.line := (next_char_moves rfl).line
  rw [Token.turns, hline, h.line, List.length_append, List.length_append]
  omega

/-- A loop over a class takes the characters of the class that are there, and looks at the next. -/
theorem while_run (h : At self before (chars ++ rest)) (hchars : ∀ x ∈ chars, c x = true)
    (h0 : c 0 = false) (hnl : c (chr '\n') = false) (hstop : ∀ x ∈ rest.head?, c x = false) {n : Nat}
    (hn : chars.length < n) :
    token_while c n (token_next_char self).1 (token_next_char self).2 =
      (chars, token_next_char (self.goto (before.length + chars.length))) := by
  induction chars generalizing self before n with
  | nil =>
    obtain ⟨n, rfl⟩ : ∃ m, n = m + 1 := ⟨n - 1, by simp at hn; omega⟩
    have hgoto : self.goto (before.length + 0) = self := by
      rw [Nat.add_zero, ← h.position]
      rfl
    have hlast : c (token_next_char self).1 = false := At.next_not h h0 hstop
    rw [token_while, if_neg (by simp [hlast]), List.length_nil, hgoto]
  | cons ch chars ih =>
    obtain ⟨n, rfl⟩ : ∃ m, n = m + 1 := ⟨n - 1, by simp at hn; omega⟩
    have hch := hchars ch (List.mem_cons_self ..)
    have hne : ch ≠ chr '\n' := fun heq => by rw [heq, hnl] at hch; cases hch
    have hrest := ih (cons h) (fun x hx => hchars x (List.mem_cons_of_mem _ hx))
      (by simpa using hn)
    rw [List.length_append, Token.goto_goto] at hrest
    rw [h.next hne, token_while, if_pos hch]
    simp only [List.length_singleton] at hrest
    simp only [hrest, List.length_cons, Nat.add_assoc, Nat.add_comm 1]

end At

end Moving

/-! ### Values of digits -/

section Digits

variable {digits : List UInt8} {ch : UInt8}

theorem le_iff (a b : UInt8) : (decide (a ≤ b) = true) ↔ a.toNat ≤ b.toNat := by
  rw [decide_eq_true_eq, UInt8.le_iff_toNat_le]

/-- The classes of digits, as ranges of codes. -/
theorem is_digit_iff : is_digit ch = true ↔ 48 ≤ ch.toNat ∧ ch.toNat ≤ 57 := by
  rw [is_digit, Bool.and_eq_true, le_iff, le_iff]
  rfl

theorem is_odigit_iff : is_odigit ch = true ↔ 48 ≤ ch.toNat ∧ ch.toNat ≤ 55 := by
  rw [is_odigit, Bool.and_eq_true, le_iff, le_iff]
  rfl

theorem lower_iff : (chr 'a' ≤ ch && ch ≤ chr 'f') = true ↔ 97 ≤ ch.toNat ∧ ch.toNat ≤ 102 := by
  rw [Bool.and_eq_true, le_iff, le_iff]
  rfl

theorem upper_iff : (chr 'A' ≤ ch && ch ≤ chr 'F') = true ↔ 65 ≤ ch.toNat ∧ ch.toNat ≤ 70 := by
  rw [Bool.and_eq_true, le_iff, le_iff]
  rfl

theorem is_xdigit_iff : is_xdigit ch = true ↔ (48 ≤ ch.toNat ∧ ch.toNat ≤ 57) ∨
    (97 ≤ ch.toNat ∧ ch.toNat ≤ 102) ∨ (65 ≤ ch.toNat ∧ ch.toNat ≤ 70) := by
  rw [is_xdigit, Bool.or_eq_true, Bool.or_eq_true, is_digit_iff, lower_iff, upper_iff, or_assoc]

/-- The class of the loop for base 16 has the digits in it. -/
theorem alnum_of_xdigit (h : is_xdigit ch = true) : (is_digit ch || is_alpha ch) = true := by
  have halpha : is_alpha ch = true ↔ (97 ≤ ch.toNat ∧ ch.toNat ≤ 122) ∨
      (65 ≤ ch.toNat ∧ ch.toNat ≤ 90) := by
    rw [is_alpha, Bool.or_eq_true, Bool.and_eq_true, Bool.and_eq_true, le_iff, le_iff, le_iff,
      le_iff]
    rfl
  rw [is_xdigit_iff] at h
  rw [Bool.or_eq_true, is_digit_iff, halpha]
  omega

/-- The value of a digit, by its code. -/
theorem digitVal_eq : digitVal ch =
    if 48 ≤ ch.toNat ∧ ch.toNat ≤ 57 then ch.toNat - 48
    else if 97 ≤ ch.toNat ∧ ch.toNat ≤ 102 then ch.toNat - 97 + 10
    else ch.toNat - 65 + 10 := by
  rw [digitVal]
  simp only [is_digit_iff, lower_iff]
  rfl

theorem digitValue_toNat (h : is_xdigit ch = true) : (digitValue ch).toNat = digitVal ch := by
  have hlt := ch.toNat_lt
  have hcode : (UInt32.ofNat ch.toNat).toNat = ch.toNat := UInt32.toNat_ofNat_of_lt' (by rw [UInt32.size]; omega)
  rw [is_xdigit_iff] at h
  rw [digitValue, digitVal_eq]
  simp only [lower_iff, upper_iff]
  split_ifs <;> simp only [UInt32.toNat_add, UInt32.toNat_sub, hcode, UInt32.reduceToNat] <;> omega

theorem digitVal_lt (h : is_xdigit ch = true) : digitVal ch < 16 := by
  rw [is_xdigit_iff] at h
  rw [digitVal_eq]
  split_ifs <;> omega

theorem odigit_val (h : is_odigit ch = true) : is_xdigit ch = true ∧ digitVal ch < 8 := by
  rw [is_odigit_iff] at h
  rw [is_xdigit_iff, digitVal_eq, if_pos (by omega)]
  omega

theorem digit_of_odigit (h : is_odigit ch = true) : is_digit ch = true := by
  rw [is_odigit_iff] at h
  rw [is_digit_iff]
  omega

theorem bit_val (h : (ch == chr '0' || ch == chr '1') = true) :
    is_xdigit ch = true ∧ digitVal ch < 2 := by
  rw [Bool.or_eq_true, beq_iff_eq, beq_iff_eq] at h
  rcases h with rfl | rfl <;> decide

theorem digitsVal_append (radix : Nat) (digits : List UInt8) (ch : UInt8) :
    digitsVal radix (digits ++ [ch]) = digitsVal radix digits * radix + digitVal ch := by
  rw [digitsVal, List.foldl_append]
  rfl

/-- The machine fold is the number up to the word. -/
theorem spec_number_toNat {shift : Nat} (hshift : shift < 32)
    (hdigits : ∀ d ∈ digits, is_xdigit d = true ∧ digitVal d < 2 ^ shift) :
    (token_spec_number digits (UInt32.ofNat shift)).toNat =
      digitsVal (2 ^ shift) digits % 2 ^ 32 := by
  induction digits using List.reverseRec with
  | nil => rfl
  | append_singleton digits d ih =>
    obtain ⟨hx, hlt⟩ := hdigits d (by simp)
    have hinit := ih fun e he => hdigits e (by simp [he])
    rw [token_spec_number] at hinit ⊢
    rw [List.foldl_append, List.foldl_cons, List.foldl_nil, digitsVal_append, UInt32.toNat_or,
      UInt32.toNat_shiftLeft, hinit, digitValue_toNat hx]
    have hwide : (UInt32.ofNat shift).toNat % 32 = shift := by
      rw [UInt32.toNat_ofNat_of_lt' (by rw [UInt32.size]; omega), Nat.mod_eq_of_lt hshift]
    have hsmall : digitVal d % 2 ^ 32 = digitVal d :=
      Nat.mod_eq_of_lt (lt_trans hlt (Nat.pow_lt_pow_right (by decide) hshift))
    calc (digitsVal (2 ^ shift) digits % 2 ^ 32) <<< ((UInt32.ofNat shift).toNat % 32) % 2 ^ 32
          ||| digitVal d
        = ((digitsVal (2 ^ shift) digits % 2 ^ 32) <<< shift ||| digitVal d) % 2 ^ 32 := by
          rw [hwide, Nat.or_mod_two_pow, hsmall]
      _ = (digitsVal (2 ^ shift) digits % 2 ^ 32 * 2 ^ shift + digitVal d) % 2 ^ 32 := by
          rw [← Nat.shiftLeft_add_eq_or_of_lt hlt, Nat.shiftLeft_eq]
      _ = (digitsVal (2 ^ shift) digits * 2 ^ shift + digitVal d) % 2 ^ 32 := by
          rw [Nat.add_mod, Nat.mod_mul_mod, ← Nat.add_mod]

theorem dec_number_toNat (hdigits : ∀ d ∈ digits, is_digit d = true) :
    (digits.foldl (fun v ch => v * 10 + (UInt32.ofNat ch.toNat - 48)) 0).toNat =
      digitsVal 10 digits % 2 ^ 32 := by
  induction digits using List.reverseRec with
  | nil => rfl
  | append_singleton digits d ih =>
    have hd := is_digit_iff.mp (hdigits d (by simp))
    have hinit := ih fun e he => hdigits e (by simp [he])
    have hcode : (UInt32.ofNat d.toNat).toNat = d.toNat :=
      UInt32.toNat_ofNat_of_lt' (by rw [UInt32.size]; omega)
    rw [List.foldl_append, List.foldl_cons, List.foldl_nil, digitsVal_append, digitVal_eq, if_pos hd]
    simp only [UInt32.toNat_add, UInt32.toNat_mul, UInt32.toNat_sub, hinit, hcode,
      UInt32.reduceToNat]
    omega

end Digits

/-! ### Numbers -/

section Numbers

variable {self : Token} {before rest digits : List UInt8} {suffix : Option UInt8}
  {c : UInt8 → Bool}

/-- The position does not depend on the value. -/
theorem Behind.congr {t t' : Token} (h : Behind t before rest) (hline : t'.line = t.line)
    (hposition : t'.position = t.position) (heof : t'.eof = t.eof) : Behind t' before rest := by
  rcases h with ⟨hl, hp, he⟩ | ⟨hend, he⟩
  · exact .inl ⟨hline.trans hl, hposition.trans hp, heof.trans he⟩
  · exact .inr ⟨hend, heof.trans he⟩

theorem prev_char_set (t : Token) (v : UInt32) (k : TokenType) :
    token_prev_char { t with int_value := v, current_token := k } =
      { token_prev_char t with int_value := v, current_token := k } := by
  rw [token_prev_char, token_prev_char]
  split_ifs <;> rfl

/-- The suffix is taken, or the character behind the digits is put back. -/
theorem suffix_spec (h : At self before (suffix.toList ++ rest))
    (hlong : ∀ x ∈ suffix, isLong x = true)
    (hstop : suffix = none → ∀ x ∈ rest.head?, isLong x = false) (v : UInt32) :
    (numberSuffix (token_next_char self).1
        { (token_next_char self).2 with int_value := v }).int_value = v ∧
      (numberSuffix (token_next_char self).1
        { (token_next_char self).2 with int_value := v }).current_token =
          (if suffix.isSome then .value_long else .value_int) ∧
      Behind (numberSuffix (token_next_char self).1
        { (token_next_char self).2 with int_value := v }) (before ++ suffix.toList) rest := by
  have hclass (x : UInt8) : (x = chr 'l' ∨ x = chr 'L') ↔ isLong x = true := by
    rw [isLong, Bool.or_eq_true, beq_iff_eq, beq_iff_eq]
  simp only [numberSuffix, hclass]
  cases suffix with
  | some x =>
    have hx := hlong x rfl
    have hne : x ≠ chr '\n' := by
      rintro rfl
      revert hx
      decide
    have hcons := At.cons h
    rw [At.next h hne, if_pos hx]
    exact ⟨rfl, rfl, .inl ⟨hcons.line, hcons.position, hcons.eof⟩⟩
  | none =>
    have h : At self before rest := h
    have hnot := h.next_not (c := isLong) (by decide) (hstop rfl)
    rw [if_neg (by simp [hnot]), prev_char_set, h.prev, Option.toList_none, List.append_nil]
    exact ⟨rfl, rfl, h.behind_peek.congr rfl rfl rfl⟩

/-- The buffer takes the run of digits, when it is not too long. -/
theorem specNumber_run (h : At self before (digits ++ rest)) (hdigits : ∀ d ∈ digits, c d = true)
    (h0 : c 0 = false) (hnl : c (chr '\n') = false) (hstop : ∀ x ∈ rest.head?, c x = false)
    (shift : UInt32) :
    specNumber c shift (token_next_char self).1 (token_next_char self).2 =
      if 128 ≤ digits.length then none
      else some (numberSuffix (token_next_char (self.goto (before.length + digits.length))).1
        { (token_next_char (self.goto (before.length + digits.length))).2 with
          int_value := token_spec_number digits shift }) := by
  rw [specNumber, h.while_run hdigits h0 hnl hstop h.lt_turns]

/-- A number was read: it has the value, the kind, and the position behind it. -/
structure IsNumber (r : Option Token) (value : Nat) (kind : TokenType) (before rest : List UInt8) :
    Prop where
  out : ∃ t, r = some t ∧ t.int_value.toNat = value % 2 ^ 32 ∧ t.current_token = kind ∧
    Behind t before rest

/-- Digits of a base that is a power of two, with what is behind them. -/
theorem specNumber_isNumber {shift : Nat} (hshift : shift < 32)
    (h : At self before (digits ++ (suffix.toList ++ rest))) (hdigits : ∀ d ∈ digits, c d = true)
    (hvalues : ∀ d ∈ digits, is_xdigit d = true ∧ digitVal d < 2 ^ shift)
    (h0 : c 0 = false) (hnl : c (chr '\n') = false)
    (hstop : ∀ x ∈ (suffix.toList ++ rest).head?, c x = false)
    (hlong : ∀ x ∈ suffix, isLong x = true)
    (hlast : suffix = none → ∀ x ∈ rest.head?, isLong x = false) (hlen : digits.length < 128) :
    IsNumber (specNumber c (UInt32.ofNat shift) (token_next_char self).1 (token_next_char self).2)
      (digitsVal (2 ^ shift) digits) (if suffix.isSome then .value_long else .value_int)
      (before ++ (digits ++ suffix.toList)) rest := by
  obtain ⟨hvalue, hkind, hbehind⟩ :=
    suffix_spec h.skip hlong hlast (token_spec_number digits (UInt32.ofNat shift))
  rw [specNumber_run h hdigits h0 hnl hstop, if_neg (Nat.not_le.mpr hlen)]
  refine ⟨_, rfl, ?_, hkind, ?_⟩
  · rw [hvalue, spec_number_toNat hshift hvalues]
  · rw [← List.append_assoc]
    exact hbehind

/-- The two characters that begin a hexadecimal number. -/
theorem proc_number_hex {x : UInt8} (h : At self before ([chr '0', x] ++ rest))
    (hx : x = chr 'x' ∨ x = chr 'X') :
    token_proc_number self = specNumber (fun ch => is_digit ch || is_alpha ch) 4
      (token_next_char (self.goto (before.length + 2))).1
      (token_next_char (self.goto (before.length + 2))).2 := by
  have hnl : x ≠ chr '\n' := by rcases hx with rfl | rfl <;> decide
  rw [token_proc_number, At.next h (by decide)]
  simp only [if_true, At.next_second h hnl]
  rw [if_pos hx]

theorem proc_number_bin {x : UInt8} (h : At self before ([chr '0', x] ++ rest))
    (hx : x = chr 'b' ∨ x = chr 'B') :
    token_proc_number self = specNumber (fun ch => ch == chr '0' || ch == chr '1') 1
      (token_next_char (self.goto (before.length + 2))).1
      (token_next_char (self.goto (before.length + 2))).2 := by
  have hnl : x ≠ chr '\n' := by rcases hx with rfl | rfl <;> decide
  have hhex : ¬(x = chr 'x' ∨ x = chr 'X') := by rcases hx with rfl | rfl <;> decide
  rw [token_proc_number, At.next h (by decide)]
  simp only [if_true, At.next_second h hnl]
  rw [if_neg hhex, if_pos hx]

theorem proc_number_oct {x : UInt8} (h : At self before ([chr '0'] ++ x :: rest))
    (hx : is_odigit x = true) :
    token_proc_number self = specNumber is_odigit 3
      (token_next_char (self.goto (before.length + 1))).1
      (token_next_char (self.goto (before.length + 1))).2 := by
  have hne (d : UInt8) (hd : is_odigit d = false) : x ≠ d := by
    rintro rfl
    rw [hx] at hd
    cases hd
  have hhex : ¬(x = chr 'x' ∨ x = chr 'X') := not_or.mpr ⟨hne _ (by decide), hne _ (by decide)⟩
  have hbin : ¬(x = chr 'b' ∨ x = chr 'B') := not_or.mpr ⟨hne _ (by decide), hne _ (by decide)⟩
  rw [token_proc_number, At.next h (by decide)]
  simp only [if_true, At.next_second h (hne _ (by decide))]
  rw [if_neg hhex, if_neg hbin, if_pos hx]

/-- A 0 with nothing behind it that the switch knows. -/
theorem proc_number_zero (h : At self before ([chr '0'] ++ rest))
    (hstop : ∀ x ∈ rest.head?, x ≠ chr 'x' ∧ x ≠ chr 'X' ∧ x ≠ chr 'b' ∧ x ≠ chr 'B' ∧
      is_odigit x = false) :
    token_proc_number self = some { (self.goto (before.length + 1)).peek rest with
      int_value := 0, current_token := .value_int } := by
  have hskip : At (self.goto (before.length + 1)) (before ++ [chr '0']) rest := h.skip
  have hnot (x : UInt8) (hx0 : x ≠ 0) (hhead : ∀ y ∈ rest.head?, y ≠ x) :
      (token_next_char (self.goto (before.length + 1))).1 ≠ x := by
    have hclass := hskip.next_not (c := (· == x)) (by simpa using hx0.symm)
      fun y hy => by simpa using hhead y hy
    simpa using hclass
  have hodigit := hskip.next_not (c := is_odigit) (by decide) fun x hx => (hstop x hx).2.2.2.2
  have hhex := not_or.mpr ⟨hnot (chr 'x') (by decide) fun y hy => (hstop y hy).1,
    hnot (chr 'X') (by decide) fun y hy => (hstop y hy).2.1⟩
  have hbin := not_or.mpr ⟨hnot (chr 'b') (by decide) fun y hy => (hstop y hy).2.2.1,
    hnot (chr 'B') (by decide) fun y hy => (hstop y hy).2.2.2.1⟩
  rw [token_proc_number, At.next h (by decide)]
  simp only [if_true]
  rw [if_neg hhex, if_neg hbin, if_neg (by simp [hodigit]), hskip.prev]

theorem proc_number_dec (h : At self before (digits ++ (suffix.toList ++ rest)))
    (hne : digits ≠ []) (hhead : digits.head? ≠ some (chr '0'))
    (hdigits : ∀ d ∈ digits, is_digit d = true)
    (hstop : ∀ x ∈ (suffix.toList ++ rest).head?, is_digit x = false)
    (hlong : ∀ x ∈ suffix, isLong x = true)
    (hlast : suffix = none → ∀ x ∈ rest.head?, isLong x = false) :
    IsNumber (token_proc_number self) (digitsVal 10 digits)
      (if suffix.isSome then .value_long else .value_int)
      (before ++ (digits ++ suffix.toList)) rest := by
  have hfirst : (token_next_char self).1 ≠ chr '0' := by
    obtain ⟨d, ds, rfl⟩ := List.exists_cons_of_ne_nil hne
    have hd : d ≠ chr '\n' := by
      rintro rfl
      have hnot := hdigits _ (List.mem_cons_self ..)
      revert hnot
      decide
    rw [At.next h hd]
    simpa using hhead
  have hrun := h.while_run hdigits (by decide) (by decide) hstop h.lt_turns
  obtain ⟨hvalue, hkind, hbehind⟩ := suffix_spec h.skip hlong hlast
    (digits.foldl (fun v ch => v * 10 + (UInt32.ofNat ch.toNat - 48)) 0)
  rw [token_proc_number]
  simp only [hfirst, if_false, hrun]
  refine ⟨_, rfl, ?_, hkind, ?_⟩
  · rw [hvalue, dec_number_toNat hdigits]
  · rw [← List.append_assoc]
    exact hbehind

end Numbers

/-! ### Integer literals -/

namespace IntLit

variable {self : Token} {before follow : List UInt8} {l : IntLit}

/-- What is behind an integer without a suffix does not continue it. -/
structure Stops (l : IntLit) (follow : List UInt8) : Prop where
  long : l.suffix = none → ∀ x ∈ follow.head?, isLong x = false
  digit : l.suffix = none → (l.base = .dec → l.digits ≠ [chr '0']) →
    ∀ x ∈ follow.head?, l.base.isDigit x = false
  zero : l.suffix = none → l.base = .dec → l.digits = [chr '0'] →
    ∀ x ∈ follow.head?, x ≠ chr 'x' ∧ x ≠ chr 'X' ∧ x ≠ chr 'b' ∧ x ≠ chr 'B' ∧ is_odigit x = false

/-- The literal with one more digit. -/
def push (l : IntLit) (x : UInt8) (hdigit : l.base.isDigit x = true)
    (hzero : l.base = .dec → l.digits ≠ [chr '0']) : IntLit :=
  { l with
    digits := l.digits ++ [x]
    suffix := none
    nonempty := by simp
    digit := fun d hd => by
      rcases List.mem_append.mp hd with hd | hd
      · exact l.digit d hd
      · rwa [List.mem_singleton.mp hd]
    leading := fun hdec => .inr (by
      rw [List.head?_append_of_ne_nil _ l.nonempty]
      exact (l.leading hdec).resolve_left (hzero hdec))
    long := fun _ h => by cases h }

/-- The least literal with a marker. -/
def ofMarker (base : Base) (marker : List UInt8) (digit : UInt8) (hmarker : marker ∈ base.markers)
    (hbase : base ≠ .dec) (hdigit : base.isDigit digit = true) : IntLit where
  base := base
  marker := marker
  digits := [digit]
  suffix := none
  marked := hmarker
  nonempty := by simp
  digit := fun d hd => by rwa [List.mem_singleton.mp hd]
  leading := fun hdec => absurd hdec hbase
  long := fun _ h => by cases h

theorem stops (h : ∀ x ∈ follow.head?, ¬(Literal.int l).Continues x) : l.Stops follow where
  long hnone x hx := by
    by_contra hlong
    rw [Bool.not_eq_false] at hlong
    let l' : IntLit := { l with suffix := some x, long := fun y hy => by cases hy; exact hlong }
    refine h x hx ⟨.int l', [], ?_⟩
    simp [Literal.text, text, l', hnone]
  digit hnone hzero x hx := by
    by_contra hdigit
    rw [Bool.not_eq_false] at hdigit
    refine h x hx ⟨.int (l.push x hdigit hzero), [], ?_⟩
    simp [Literal.text, text, push, hnone]
  zero hnone hdec hdigits := by
    have hmarker : l.marker = [] := by
      have hm := l.marked
      rw [hdec] at hm
      exact List.mem_singleton.mp hm
    have hone (l' : IntLit) (x : UInt8) (hx : x ∈ follow.head?) (hpre : [chr '0', x] <+: l'.text) :
        False := by
      refine h x hx ⟨.int l', ?_⟩
      simpa [Literal.text, text, hmarker, hdigits, hnone] using hpre
    have hmark (base : Base) (x : UInt8) (hm : [chr '0', x] ∈ base.markers) (hbase : base ≠ .dec)
        (hd : base.isDigit (chr '0') = true) (hx : x ∈ follow.head?) : False :=
      hone (ofMarker base [chr '0', x] (chr '0') hm hbase hd) x hx ⟨[chr '0'], rfl⟩
    intro x hx
    refine ⟨?_, ?_, ?_, ?_, ?_⟩
    · rintro rfl
      exact hmark .hex _ (by decide) (by decide) (by decide) hx
    · rintro rfl
      exact hmark .hex _ (by decide) (by decide) (by decide) hx
    · rintro rfl
      exact hmark .bin _ (by decide) (by decide) (by decide) hx
    · rintro rfl
      exact hmark .bin _ (by decide) (by decide) (by decide) hx
    · by_contra hodigit
      rw [Bool.not_eq_false] at hodigit
      exact hone (ofMarker .oct [chr '0'] x (by decide) (by decide) hodigit) x hx ⟨[], rfl⟩

/-- What stands behind the digits is not one of them. -/
theorem Stops.behind_digits (h : l.Stops follow) (hzero : l.base = .dec → l.digits ≠ [chr '0']) :
    ∀ x ∈ (l.suffix.toList ++ follow).head?, l.base.isDigit x = false := by
  intro x hx
  cases hsuffix : l.suffix with
  | none =>
    rw [hsuffix] at hx
    exact h.digit hsuffix hzero x hx
  | some y =>
    rw [hsuffix] at hx
    obtain rfl : y = x := Option.some.inj hx
    have hlong := l.long y hsuffix
    rw [isLong, Bool.or_eq_true, beq_iff_eq, beq_iff_eq] at hlong
    rcases hlong with rfl | rfl <;> cases l.base <;> decide

theorem scans_dec (hstops : l.Stops follow) (hdec : l.base = .dec)
    (hread : l.digits = [chr '0'] → l.suffix = none)
    (h : At self before (l.text ++ follow)) :
    IsNumber (token_proc_number self) l.value l.kind (before ++ l.text) follow := by
  have hmarker : l.marker = [] := by
    have hm := l.marked
    rw [hdec] at hm
    exact List.mem_singleton.mp hm
  by_cases hzero : l.digits = [chr '0']
  · have hnone := hread hzero
    have htext : l.text = [chr '0'] := by simp [text, hmarker, hzero, hnone]
    rw [htext] at h ⊢
    have hskip : At (self.goto (before.length + 1)) (before ++ [chr '0']) follow := h.skip
    rw [proc_number_zero h (hstops.zero hnone hdec hzero)]
    refine ⟨_, rfl, ?_, ?_, hskip.behind_peek.congr rfl rfl rfl⟩
    · rw [value, hdec, hzero]
      rfl
    · simp [kind, hnone]
  · have hdigit := l.digit
    have hbehind := hstops.behind_digits fun _ => hzero
    rw [hdec] at hdigit hbehind
    have htext : l.text = l.digits ++ l.suffix.toList := by simp [text, hmarker]
    rw [htext, List.append_assoc] at h
    rw [htext, value, hdec, kind]
    exact proc_number_dec h l.nonempty ((l.leading hdec).resolve_left hzero) hdigit hbehind l.long
      hstops.long

/-- Digits behind a marker, read by the loop of their class. -/
theorem scans_marked {c : UInt8 → Bool} {shift : Nat} (hstops : l.Stops follow) (hshift : shift < 32)
    (hradix : l.base.radix = 2 ^ shift)
    (hvalues : ∀ d ∈ l.digits, is_xdigit d = true ∧ digitVal d < 2 ^ shift)
    (hclass : ∀ d ∈ l.digits, c d = true) (h0 : c 0 = false) (hnl : c (chr '\n') = false)
    (hbehind : ∀ x ∈ (l.suffix.toList ++ follow).head?, c x = false)
    (hread : l.digits.length < 128) (h : At self before (l.text ++ follow))
    (hproc : token_proc_number self = specNumber c (UInt32.ofNat shift)
      (token_next_char (self.goto (before.length + l.marker.length))).1
      (token_next_char (self.goto (before.length + l.marker.length))).2) :
    IsNumber (token_proc_number self) l.value l.kind (before ++ l.text) follow := by
  rw [text, List.append_assoc, List.append_assoc] at h
  have hnumber := specNumber_isNumber hshift h.skip hclass hvalues h0 hnl hbehind l.long hstops.long
    hread
  rw [hproc, value, hradix, kind, text, ← List.append_assoc before l.marker]
  exact hnumber

theorem oct_proc (hoct : l.base = .oct) (h : At self before (l.text ++ follow)) :
    token_proc_number self = specNumber is_odigit 3
      (token_next_char (self.goto (before.length + l.marker.length))).1
      (token_next_char (self.goto (before.length + l.marker.length))).2 := by
  have hmarked := l.marked
  have hdigit := l.digit
  rw [hoct] at hmarked hdigit
  have hmarker : l.marker = [chr '0'] := List.mem_singleton.mp hmarked
  obtain ⟨d, ds, hds⟩ := List.exists_cons_of_ne_nil l.nonempty
  rw [text, hmarker, hds] at h
  rw [hmarker]
  exact proc_number_oct h (hdigit d (hds ▸ List.mem_cons_self ..))

theorem bin_proc (hbin : l.base = .bin) (h : At self before (l.text ++ follow)) :
    token_proc_number self = specNumber (fun ch => ch == chr '0' || ch == chr '1') 1
      (token_next_char (self.goto (before.length + l.marker.length))).1
      (token_next_char (self.goto (before.length + l.marker.length))).2 := by
  have hmarked := l.marked
  rw [hbin] at hmarked
  obtain ⟨x, hmarker, hx⟩ : ∃ x, l.marker = [chr '0', x] ∧ (x = chr 'b' ∨ x = chr 'B') := by
    rcases List.mem_pair.mp hmarked with hm | hm
    · exact ⟨_, hm, .inl rfl⟩
    · exact ⟨_, hm, .inr rfl⟩
  rw [text, hmarker] at h
  rw [hmarker]
  exact proc_number_bin h hx

theorem hex_proc (hhex : l.base = .hex) (h : At self before (l.text ++ follow)) :
    token_proc_number self = specNumber (fun ch => is_digit ch || is_alpha ch) 4
      (token_next_char (self.goto (before.length + l.marker.length))).1
      (token_next_char (self.goto (before.length + l.marker.length))).2 := by
  have hmarked := l.marked
  rw [hhex] at hmarked
  obtain ⟨x, hmarker, hx⟩ : ∃ x, l.marker = [chr '0', x] ∧ (x = chr 'x' ∨ x = chr 'X') := by
    rcases List.mem_pair.mp hmarked with hm | hm
    · exact ⟨_, hm, .inl rfl⟩
    · exact ⟨_, hm, .inr rfl⟩
  rw [text, hmarker] at h
  rw [hmarker]
  exact proc_number_hex h hx

theorem scans_oct (hstops : l.Stops follow) (hoct : l.base = .oct) (hread : l.digits.length < 128)
    (h : At self before (l.text ++ follow)) :
    IsNumber (token_proc_number self) l.value l.kind (before ++ l.text) follow := by
  have hdigit := l.digit
  have hbehind := hstops.behind_digits fun hdec => absurd (hoct.symm.trans hdec) (by decide)
  rw [hoct] at hdigit hbehind
  exact scans_marked (c := is_odigit) hstops (by decide : 3 < 32) (by rw [hoct]; rfl)
    (fun d hd => odigit_val (hdigit d hd)) hdigit (by decide) (by decide) hbehind hread h
    (oct_proc hoct h)

theorem scans_bin (hstops : l.Stops follow) (hbin : l.base = .bin) (hread : l.digits.length < 128)
    (h : At self before (l.text ++ follow)) :
    IsNumber (token_proc_number self) l.value l.kind (before ++ l.text) follow := by
  have hdigit := l.digit
  have hbehind := hstops.behind_digits fun hdec => absurd (hbin.symm.trans hdec) (by decide)
  rw [hbin] at hdigit hbehind
  exact scans_marked (c := fun ch => ch == chr '0' || ch == chr '1') hstops (by decide : 1 < 32)
    (by rw [hbin]; rfl) (fun d hd => bit_val (hdigit d hd)) hdigit (by decide) (by decide) hbehind
    hread h (bin_proc hbin h)

theorem hex_digit (hhex : l.base = .hex) : ∀ d ∈ l.digits, is_xdigit d = true := by
  have hdigit := l.digit
  rwa [hhex] at hdigit

theorem scans_hex (hstops : l.Stops follow) (hhex : l.base = .hex) (hread : l.digits.length < 128)
    (hnone : l.suffix = none)
    (hfollow : ∀ x ∈ follow.head?, (is_digit x || is_alpha x) = false)
    (h : At self before (l.text ++ follow)) :
    IsNumber (token_proc_number self) l.value l.kind (before ++ l.text) follow := by
  exact scans_marked (c := fun ch => is_digit ch || is_alpha ch) hstops (by decide : 4 < 32)
    (by rw [hhex]; rfl) (fun d hd => ⟨hex_digit hhex d hd, digitVal_lt (hex_digit hhex d hd)⟩)
    (fun d hd => alnum_of_xdigit (hex_digit hhex d hd)) (by decide) (by decide)
    (by rwa [hnone]) hread h (hex_proc hhex h)

/-- The literals that are read. -/
theorem scans_of_read (hstops : l.Stops follow) (hread : l.Read follow)
    (h : At self before (l.text ++ follow)) :
    IsNumber (token_proc_number self) l.value l.kind (before ++ l.text) follow := by
  rw [Read] at hread
  cases hbase : l.base with
  | dec => exact scans_dec hstops hbase (by simpa only [hbase] using hread) h
  | oct => exact scans_oct hstops hbase (by simpa only [hbase] using hread) h
  | bin => exact scans_bin hstops hbase (by simpa only [hbase] using hread) h
  | hex =>
    simp only [hbase] at hread
    exact scans_hex hstops hbase hread.1 hread.2.1 hread.2.2 h

/-! The literals that are not. -/

/-- A suffix on 0 is left behind. -/
theorem zero_suffix_left (hdec : l.base = .dec) (hzero : l.digits = [chr '0'])
    (hsuffix : l.suffix ≠ none) (h : At self before (l.text ++ follow)) :
    ¬IsNumber (token_proc_number self) l.value l.kind (before ++ l.text) follow := by
  obtain ⟨x, hx⟩ := Option.ne_none_iff_exists'.mp hsuffix
  have hlong := l.long x hx
  have hmarked := l.marked
  rw [hdec] at hmarked
  have hmarker : l.marker = [] := List.mem_singleton.mp hmarked
  have htext : l.text = [chr '0', x] := by simp [text, hmarker, hzero, hx]
  rw [htext] at h
  have hproc := @proc_number_zero _ _ (x :: follow) h fun y hy => by
    obtain rfl : x = y := Option.some.inj hy
    rw [isLong, Bool.or_eq_true, beq_iff_eq, beq_iff_eq] at hlong
    rcases hlong with rfl | rfl <;> decide
  rw [hproc]
  rintro ⟨t, ht, -, hkind, -⟩
  obtain rfl := Option.some.inj ht
  simp [kind, hx] at hkind

/-- Too many digits leave the buffer. -/
theorem long_overflows {c : UInt8 → Bool} {shift : UInt32} (hclass : ∀ d ∈ l.digits, c d = true)
    (h0 : c 0 = false) (hnl : c (chr '\n') = false)
    (hbehind : ∀ x ∈ (l.suffix.toList ++ follow).head?, c x = false)
    (hlong : 128 ≤ l.digits.length) (h : At self before (l.text ++ follow))
    (hproc : token_proc_number self = specNumber c shift
      (token_next_char (self.goto (before.length + l.marker.length))).1
      (token_next_char (self.goto (before.length + l.marker.length))).2) :
    token_proc_number self = none := by
  rw [text, List.append_assoc, List.append_assoc] at h
  rw [hproc, specNumber_run h.skip hclass h0 hnl hbehind, if_pos hlong]

/-- In base 16 the suffix and what is behind are digits too. -/
theorem hex_runs_on (hhex : l.base = .hex)
    (hnot : ¬(l.digits.length < 128 ∧ l.suffix = none ∧
      ∀ x ∈ follow.head?, (is_digit x || is_alpha x) = false))
    (h : At self before (l.text ++ follow)) :
    ¬IsNumber (token_proc_number self) l.value l.kind (before ++ l.text) follow := by
  -- the run of the loop, and what it leaves
  let p : UInt8 → Bool := fun ch => is_digit ch || is_alpha ch
  let run := l.digits ++ (l.suffix.toList ++ follow.takeWhile p)
  have htext : l.text ++ follow = l.marker ++ (run ++ (Option.toList none ++ follow.dropWhile p)) := by
    have hsplit := List.takeWhile_append_dropWhile (p := p) (l := follow)
    simp only [text, run, List.append_assoc, Option.toList_none, List.nil_append, hsplit]
  have hlong (x : UInt8) (hx : isLong x = true) : p x = true := by
    rw [isLong, Bool.or_eq_true, beq_iff_eq, beq_iff_eq] at hx
    rcases hx with rfl | rfl <;> decide
  have hrun : ∀ x ∈ run, p x = true := by
    intro x hx
    rcases List.mem_append.mp hx with hx | hx
    · exact alnum_of_xdigit (hex_digit hhex x hx)
    rcases List.mem_append.mp hx with hx | hx
    · exact hlong x (l.long x (Option.mem_toList.mp hx))
    · exact List.mem_takeWhile_imp hx
  have hrest : ∀ x ∈ (follow.dropWhile p).head?, p x = false := by
    intro x hx
    have hhead := List.head?_dropWhile_not p follow
    rw [hx] at hhead
    exact hhead
  have hat := h
  rw [htext] at hat
  rw [hex_proc hhex h, specNumber_run hat.skip hrun (by decide) (by decide) hrest]
  rintro ⟨t, ht, -, hkind, hbehind⟩
  split_ifs at ht with hlen
  obtain rfl := Option.some.inj ht
  obtain ⟨-, hint, hrunEnd⟩ := suffix_spec hat.skip.skip (fun _ h => by cases h)
    (fun _ x hx => by
      by_contra hx'
      rw [Bool.not_eq_false] at hx'
      have hnot := hrest x hx
      rw [hlong x hx'] at hnot
      cases hnot) (token_spec_number run 4)
  have hnone : l.suffix = none := by
    cases hsuffix : l.suffix with
    | none => rfl
    | some x =>
      have hkinds := hint.symm.trans hkind
      simp [kind, hsuffix] at hkinds
  have hshort : l.digits.length < 128 := by
    simp only [run, List.length_append] at hlen
    omega
  obtain ⟨x, hx, hpx⟩ : ∃ x ∈ follow.head?, p x = true := by
    by_contra hall
    refine hnot ⟨hshort, hnone, fun x hx => ?_⟩
    rw [← Bool.not_eq_true]
    exact fun hpx => hall ⟨x, hx, hpx⟩
  obtain ⟨rest, rfl⟩ : ∃ rest, follow = x :: rest := List.head?_eq_some_iff.mp hx
  have hlonger : l.marker.length + l.digits.length < (l.marker ++ run).length := by
    simp [run, hnone, hpx]
  rcases hbehind with hbehind | ⟨hend, -⟩
  · rcases hrunEnd with hrunEnd | ⟨-, heof⟩
    · have hposition := hbehind.position.symm.trans hrunEnd.position
      simp only [text, hnone, Option.toList_none, List.append_nil, List.length_append] at hposition
      rw [List.length_append] at hlonger
      omega
    · rw [hbehind.eof] at heof
      cases heof
  · rw [hend x rfl] at hpx
    revert hpx
    decide

theorem not_scans (hstops : l.Stops follow) (hnot : ¬l.Read follow)
    (h : At self before (l.text ++ follow)) :
    ¬IsNumber (token_proc_number self) l.value l.kind (before ++ l.text) follow := by
  rw [Read] at hnot
  have hdigit := l.digit
  cases hbase : l.base with
  | dec =>
    simp only [hbase, Classical.not_imp] at hnot
    exact zero_suffix_left hbase hnot.1 hnot.2 h
  | oct =>
    simp only [hbase, not_lt] at hnot
    have hbehind := hstops.behind_digits fun hdec => absurd (hbase.symm.trans hdec) (by decide)
    rw [hbase] at hdigit hbehind
    rw [long_overflows hdigit (by decide) (by decide) hbehind hnot h (oct_proc hbase h)]
    rintro ⟨t, ht, -⟩
    cases ht
  | bin =>
    simp only [hbase, not_lt] at hnot
    have hbehind := hstops.behind_digits fun hdec => absurd (hbase.symm.trans hdec) (by decide)
    rw [hbase] at hdigit hbehind
    rw [long_overflows hdigit (by decide) (by decide) hbehind hnot h (bin_proc hbase h)]
    rintro ⟨t, ht, -⟩
    cases ht
  | hex => exact hex_runs_on hbase (by simpa only [hbase] using hnot) h

end IntLit

end Ab32Vg1.Finsh
