import Ab32Vg1.Finsh.LiteralScan

/-! Characters, strings, and the tokens of all literals. -/

namespace Ab32Vg1.Finsh

/-! ### From the token to the literal -/

section Entry

variable {self : Token} {before rest : List UInt8} {ch : UInt8}

theorem At.write (h : At self before rest) (s : List UInt8) : At (self.write s) before rest :=
  ⟨h.line, h.position, h.eof⟩

/-- A state in front of a line. -/
def Token.start (string line : List UInt8) : Token :=
  { eof := false
    replay := false
    position := 0
    current_token := .eof
    char_value := 0
    int_value := 0
    string := string
    line := line
    errno := FINSH_ERROR_OK }

theorem Token.start_at (string line : List UInt8) : At (Token.start string line) [] line :=
  ⟨rfl, rfl, rfl⟩

theorem prev_char_write (t : Token) (s : List UInt8) :
    token_prev_char (t.write s) = (token_prev_char t).write s := by
  by_cases heof : t.eof = true <;> by_cases hposition : t.position = 0 <;>
    simp [token_prev_char, Token.write, heof, hposition]

theorem At.prev_cons (h : At self before (ch :: rest)) (hnl : ch ≠ chr '\n') :
    token_prev_char (self.goto (before.length + 1)) = self := by
  have hprev := h.prev
  rwa [h.next hnl, Token.peek_cons _ _ hnl] at hprev

theorem while_nothing {c : UInt8 → Bool} (hc : c ch = false) (n : Nat) (t : Token) :
    token_while c n ch t = ([], ch, t) := by
  cases n with
  | zero => rfl
  | succ n => rw [token_while, if_neg (by simp [hc])]

theorem trim_nothing (h : At self before (ch :: rest)) (hnl : ch ≠ chr '\n')
    (hspace : is_space ch = false) : token_trim_space self = self := by
  rw [token_trim_space, h.next hnl]
  simp only [while_nothing hspace]
  exact h.prev_cons hnl

/-- A literal is no name. -/
theorem get_string_nothing (h : At self before (ch :: rest)) (hnl : ch ≠ chr '\n')
    (hname : is_digit ch = true ∨ is_separator ch = true) :
    token_get_string self = some (self.write [0]) := by
  have heof : (self.goto (before.length + 1)).eof = false := h.eof
  rw [token_get_string, h.next hnl]
  simp only [heof]
  by_cases hdigit : is_digit ch = true
  · rw [if_neg (by decide), if_pos hdigit, prev_char_write, h.prev_cons hnl]
  · have hsep : (!is_separator ch) = false := by simp [hname.resolve_left hdigit]
    have hloop : ∀ n t, token_while (fun ch => !is_separator ch) n ch t = ([], ch, t) :=
      while_nothing hsep
    have hsame : { (self.goto (before.length + 1)).write [0] with eof := false } =
        (self.goto (before.length + 1)).write [0] := by
      rw [← heof]
      rfl
    rw [if_neg (by decide), if_neg hdigit]
    simp only [hloop, hsame]
    rw [if_neg (by decide), prev_char_write, h.prev_cons hnl]
    rfl

theorem run_switch (h : At self before (ch :: rest)) (hnl : ch ≠ chr '\n')
    (hspace : is_space ch = false) (hname : is_digit ch = true ∨ is_separator ch = true) :
    token_run self = token_switch (self.write [0]) := by
  have heof : (self.write [0]).eof = false := h.eof
  have hstring : cstr (self.write [0]).string = [] := cstr_write_nul self
  rw [token_run, trim_nothing h hnl hspace, get_string_nothing h hnl hname]
  simp [heof, hstring]

theorem token_number (h : At self before (ch :: rest)) (hdigit : is_digit ch = true)
    (hreplay : self.replay = false) :
    finsh_token_token self =
      (token_proc_number (self.write [0])).map fun t => (t.current_token, t) := by
  have hne (d : UInt8) (hd : is_digit d = false) : ch ≠ d := by
    rintro rfl
    rw [hdigit] at hd
    cases hd
  have hspace : is_space ch = false := by
    simp [is_space, hne (chr ' ') (by decide), hne (chr '\t') (by decide),
      hne (chr '\r') (by decide)]
  have hoperator : token_operator ch = none := by
    simp only [token_operator,
      hne (chr '(') (by decide), hne (chr ')') (by decide), hne (chr ',') (by decide),
      hne (chr ';') (by decide), hne (chr '&') (by decide), hne (chr '*') (by decide),
      hne (chr '|') (by decide), hne (chr '%') (by decide), hne (chr '~') (by decide),
      hne (chr '^') (by decide), hne (chr '=') (by decide), if_false]
  have hdouble : token_double ch = none := by
    simp only [token_double,
      hne (chr '+') (by decide), hne (chr '-') (by decide), hne (chr '/') (by decide),
      hne (chr '<') (by decide), hne (chr '>') (by decide), if_false]
  have hnl := hne (chr '\n') (by decide)
  have hswitch : token_switch (self.write [0]) = token_proc_number (self.write [0]) := by
    rw [token_switch, (h.write [0]).next hnl]
    simp only [hoperator, hdouble]
    rw [if_neg (hne _ (by decide)), if_neg (hne _ (by decide)), if_pos hdigit,
      (h.write [0]).prev_cons hnl]
  rw [finsh_token_token, if_neg (by simp [hreplay]),
    run_switch h (hne _ (by decide)) hspace (.inl hdigit), hswitch]

theorem token_char (h : At self before (chr '\'' :: rest)) (hreplay : self.replay = false) :
    finsh_token_token self =
      (token_proc_char ((self.write [0]).goto (before.length + 1))).map fun t =>
        (.value_char, { t with current_token := .value_char }) := by
  have hswitch : token_switch (self.write [0]) =
      (token_proc_char ((self.write [0]).goto (before.length + 1))).map fun t =>
        { t with current_token := .value_char } := by
    rw [token_switch, (h.write [0]).next (by decide)]
    rfl
  rw [finsh_token_token, if_neg (by simp [hreplay]),
    run_switch h (by decide) (by decide) (.inr (by decide)), hswitch, Option.map_map]
  rfl

theorem token_str (h : At self before (chr '"' :: rest)) (hreplay : self.replay = false) :
    finsh_token_token self = some (.value_string,
      { token_proc_string FINSH_STRING_MAX [] ((self.write [0]).goto (before.length + 1)) with
        current_token := .value_string }) := by
  have hswitch : token_switch (self.write [0]) = some
      { token_proc_string FINSH_STRING_MAX [] ((self.write [0]).goto (before.length + 1)) with
        current_token := .value_string } := by
    rw [token_switch, (h.write [0]).next (by decide)]
    rfl
  rw [finsh_token_token, if_neg (by simp [hreplay]),
    run_switch h (by decide) (by decide) (.inr (by decide)), hswitch]
  rfl

end Entry

/-! ### Characters -/

namespace CharLit

variable {self : Token} {before follow : List UInt8} {l : CharLit}

/-- The value that the code takes: 0 for every octal escape. -/
def scanned (l : CharLit) : UInt8 :=
  match l.item with
  | .octal _ => 0
  | i => i.value

theorem charValue_item (h : At self before (l.item.text ++ chr '\'' :: follow)) :
    charValue self = some (l.scanned, self.goto (before.length + l.item.text.length)) := by
  have hvalid := l.valid
  cases hitem : l.item with
  | plain ch =>
    rw [hitem] at h hvalid
    have hread := At.next h hvalid.2.2.1
    rw [charValue, hread]
    simp only [hvalid.2.1, if_false, scanned, hitem]
    rfl
  | simple ch =>
    rw [hitem] at h
    have hlisted := l.listed ch hitem
    have hfirst := At.next h (by decide)
    have hnl : ch ≠ chr '\n' := by
      rintro rfl
      revert hlisted
      decide
    have hsecond := At.next_second h hnl
    simp only [charValue, hfirst, hsecond, if_true, scanned, hitem]
    have hcases : ch = chr 'n' ∨ ch = chr 't' ∨ ch = chr 'v' ∨ ch = chr 'b' ∨ ch = chr 'r' ∨
        ch = chr '\\' ∨ ch = chr '\'' := by
      simpa only [charEscapes, List.mem_cons, List.not_mem_nil, or_false] using hlisted
    rcases hcases with rfl | rfl | rfl | rfl | rfl | rfl | rfl <;> rfl
  | octal digits =>
    rw [hitem] at h hvalid
    obtain ⟨hne, hshort, hodigits⟩ := hvalid
    obtain ⟨d, ds, rfl⟩ := List.exists_cons_of_ne_nil hne
    have hd := hodigits d (List.mem_cons_self ..)
    have hother (x : UInt8) (hx : is_odigit x = false) : d ≠ x := by
      rintro rfl
      rw [hd] at hx
      cases hx
    have hfirst := At.next h (by decide)
    have hsecond := At.next_second h (hother _ (by decide))
    have hescape : escape d = none := by
      simp only [escape, hother (chr 'n') (by decide), hother (chr 't') (by decide),
        hother (chr 'v') (by decide), hother (chr 'b') (by decide), hother (chr 'r') (by decide),
        if_false]
    have hplain : ¬(d = chr '\\' ∨ d = chr '\'') :=
      not_or.mpr ⟨hother _ (by decide), hother _ (by decide)⟩
    have hdigits : At (self.goto (before.length + 1)) (before ++ [chr '\\'])
        ((d :: ds) ++ chr '\'' :: follow) := At.cons h
    have hquote := hdigits.skip
    have hrun := hdigits.while_run (c := is_digit)
      (fun x hx => digit_of_odigit (hodigits x hx)) (by decide) (by decide)
      (fun x hx => by cases hx; decide) hdigits.lt_turns
    rw [hsecond] at hrun
    simp only at hrun
    simp only [charValue, hfirst, hsecond, if_true, hescape, hplain, if_false, hrun, hquote.prev]
    rw [if_neg (by omega)]
    have hlength : (before ++ [chr '\\']).length + (d :: ds).length =
        before.length + (Item.octal (d :: ds)).text.length := by
      simp only [List.length_append, List.length_cons, Item.text, List.length_nil]
      omega
    rw [Token.peek_cons _ _ (by decide), Token.goto_goto, hlength]
    simp only [scanned, hitem]
  | hex x digits => exact absurd hitem (l.noHex x digits)

theorem proc_char (h : At self before (l.item.text ++ chr '\'' :: follow)) :
    token_proc_char self = some { self.goto (before.length + l.item.text.length + 1) with
      char_value := l.scanned } := by
  have hquote : At (self.goto (before.length + l.item.text.length)) (before ++ l.item.text)
      (chr '\'' :: follow) := h.skip
  have hread := hquote.next (by decide)
  rw [token_proc_char, charValue_item h]
  simp only [Option.map_some, hread, if_true, Token.goto_goto, List.length_append]

/-- A character is read exactly when it is no octal escape of another value than 0. -/
theorem scans_iff (follow : List UInt8) : Scans (.char l) follow ↔ l.Read := by
  have htoken {self : Token} {before : List UInt8} (h : At self before (l.text ++ follow))
      (hreplay : self.replay = false) : finsh_token_token self = some (.value_char,
        { (self.write [0]).goto (before.length + l.text.length) with
          char_value := l.scanned, current_token := .value_char }) := by
    have hline : At self before (chr '\'' :: (l.item.text ++ chr '\'' :: follow)) := by
      simpa [text] using h
    have hopen : At (self.write [0]) before ([chr '\''] ++ (l.item.text ++ chr '\'' :: follow)) :=
      hline.write [0]
    have hlength : (before ++ [chr '\'']).length + l.item.text.length + 1 =
        before.length + l.text.length := by
      simp only [text, List.length_append, List.length_cons, List.length_nil]
      omega
    rw [token_char hline hreplay, ← List.length_singleton (a := chr '\''), proc_char hopen.skip,
      Token.goto_goto, hlength]
    rfl
  have hscanned : l.scanned = l.item.value ↔ l.Read := by
    rw [Read, scanned]
    cases hitem : l.item <;> simp [eq_comm]
  rw [← hscanned]
  constructor
  · intro h
    obtain ⟨t, ht, hholds, -⟩ := h _ [] (Token.start_at [] (l.text ++ follow)) rfl
    rw [htoken (Token.start_at [] (l.text ++ follow)) rfl] at ht
    obtain rfl := (Prod.mk.inj (Option.some.inj ht)).2
    exact hholds
  · intro heq self before h hreplay
    have hskip := (h.write [0]).skip
    exact ⟨_, htoken h hreplay, heq, .inl ⟨hskip.line, hskip.position, hskip.eof⟩⟩

end CharLit

/-! ### Integers -/

theorem IntLit.text_head (l : IntLit) : ∃ d ds, l.text = d :: ds ∧ is_digit d = true := by
  obtain ⟨d, ds, hds⟩ := List.exists_cons_of_ne_nil l.nonempty
  have hmarked := l.marked
  have hdigit := l.digit d (hds ▸ List.mem_cons_self ..)
  cases hbase : l.base with
  | dec =>
    rw [hbase] at hmarked hdigit
    refine ⟨d, ds ++ l.suffix.toList, ?_, hdigit⟩
    rw [IntLit.text, List.mem_singleton.mp hmarked, hds]
    rfl
  | oct =>
    rw [hbase] at hmarked
    refine ⟨chr '0', l.digits ++ l.suffix.toList, ?_, by decide⟩
    rw [IntLit.text, List.mem_singleton.mp hmarked]
    rfl
  | hex | bin =>
    rw [hbase] at hmarked
    rcases List.mem_pair.mp hmarked with hm | hm <;>
      exact ⟨chr '0', _, by rw [IntLit.text, hm]; rfl, by decide⟩

/-- An integer is read exactly when it is one of those of `IntLit.Read`. -/
theorem IntLit.scans_iff {l : IntLit} {follow : List UInt8} (hstops : l.Stops follow) :
    Scans (.int l) follow ↔ l.Read follow := by
  obtain ⟨d, ds, htext, hdigit⟩ := l.text_head
  have htoken {self : Token} {before : List UInt8} (h : At self before (l.text ++ follow))
      (hreplay : self.replay = false) :
      finsh_token_token self =
        (token_proc_number (self.write [0])).map fun t => (t.current_token, t) := by
    rw [htext] at h
    exact token_number h hdigit hreplay
  constructor
  · intro h
    by_contra hnot
    have hat := Token.start_at [] (l.text ++ follow)
    obtain ⟨t, ht, hholds, hbehind⟩ := h _ [] hat rfl
    rw [htoken hat rfl, Option.map_eq_some_iff] at ht
    obtain ⟨t', hproc, hpair⟩ := ht
    obtain ⟨hkind, rfl⟩ := Prod.mk.inj hpair
    exact not_scans hstops hnot (hat.write [0]) ⟨t', hproc, hholds, hkind, hbehind⟩
  · intro hread self before h hreplay
    obtain ⟨t, hproc, hvalue, hkind, hbehind⟩ := scans_of_read hstops hread (h.write [0])
    refine ⟨t, ?_, hvalue, hbehind⟩
    rw [htoken h hreplay, hproc, Option.map_some, hkind]
    rfl

/-! ### Strings -/

section Escapes

variable {self : Token} {before rest digits : List UInt8} {ch : UInt8}

/-- An escape of one letter; those that the code does not know become 0. -/
theorem escape_simple (h : At self before (ch :: rest)) (hch : (simpleEscape ch).isSome = true) :
    token_proc_escape self =
      (if forgotten ch then 0 else (simpleEscape ch).getD 0, self.goto (before.length + 1)) := by
  have hcases : ch = chr 'n' ∨ ch = chr 't' ∨ ch = chr 'v' ∨ ch = chr 'b' ∨ ch = chr 'r' ∨
      ch = chr 'f' ∨ ch = chr 'a' ∨ ch = chr '\\' ∨ ch = chr '\'' ∨ ch = chr '"' ∨ ch = chr '?' := by
    by_contra hnot
    simp only [not_or] at hnot
    simp [simpleEscape, hnot] at hch
  have hnl : ch ≠ chr '\n' := by
    rintro rfl
    revert hch
    decide
  rw [token_proc_escape, h.next hnl]
  rcases hcases with rfl | rfl | rfl | rfl | rfl | rfl | rfl | rfl | rfl | rfl | rfl <;> rfl

theorem escape_octal (h : At self before (digits ++ rest)) (hne : digits ≠ [])
    (hdigits : ∀ d ∈ digits, is_odigit d = true) (hstop : ∀ x ∈ rest.head?, is_odigit x = false) :
    token_proc_escape self = (digits.foldl (fun v ch => v * 8 + (ch - chr '0')) 0,
      (self.goto (before.length + digits.length)).peek rest) := by
  have hrun := h.while_run hdigits (by decide) (by decide) hstop h.lt_turns
  have hprev := h.skip.prev
  obtain ⟨d, ds, rfl⟩ := List.exists_cons_of_ne_nil hne
  have hd := hdigits d (List.mem_cons_self ..)
  have hother (x : UInt8) (hx : is_odigit x = false) : d ≠ x := by
    rintro rfl
    rw [hd] at hx
    cases hx
  have hfirst := At.next h (hother _ (by decide))
  have hescape : escape d = none := by
    simp only [escape, hother (chr 'n') (by decide), hother (chr 't') (by decide),
      hother (chr 'v') (by decide), hother (chr 'b') (by decide), hother (chr 'r') (by decide),
      if_false]
  rw [hfirst] at hrun
  rw [token_proc_escape, hfirst]
  simp only [hescape, hother (chr 'f') (by decide), hother (chr 'a') (by decide),
    hother (chr '"') (by decide), hother (chr 'x') (by decide), hother (chr 'X') (by decide), hd,
    or_self, if_false, if_true, hrun, hprev]

theorem escape_hex {x : UInt8} (hx : x = chr 'x' ∨ x = chr 'X')
    (h : At self before ([x] ++ (digits ++ rest)))
    (hdigits : ∀ d ∈ digits, is_xdigit d = true) (hstop : ∀ x ∈ rest.head?, is_xdigit x = false) :
    token_proc_escape self =
      (digits.foldl (fun v ch => v * 16 + UInt8.ofNat (digitValue ch).toNat) 0,
        (self.goto (before.length + 1 + digits.length)).peek rest) := by
  have hskip : At (self.goto (before.length + 1)) (before ++ [x]) (digits ++ rest) := At.cons h
  have hrun := hskip.while_run hdigits (by decide) (by decide) hstop hskip.lt_turns
  have hprev := hskip.skip.prev
  have hnl : x ≠ chr '\n' := by rcases hx with rfl | rfl <;> decide
  have hfirst := At.next h hnl
  have hlength : (before ++ [x]).length = before.length + 1 := List.length_append
  rw [hlength, Token.goto_goto] at hrun hprev
  have hescape : escape x = none := by rcases hx with rfl | rfl <;> rfl
  have hletter : x ≠ chr 'f' ∧ x ≠ chr 'a' ∧ x ≠ chr '"' := by
    rcases hx with rfl | rfl <;> decide
  simp only [token_proc_escape, hfirst, hescape, hletter.1, hletter.2.1, hletter.2.2, hx, if_true,
    if_false, hrun, hprev]

/-- The folds of the escapes are the values of their digits in a byte. -/
theorem octal_value (hdigits : ∀ d ∈ digits, is_odigit d = true) :
    digits.foldl (fun v ch => v * 8 + (ch - chr '0')) 0 = UInt8.ofNat (digitsVal 8 digits) := by
  induction digits using List.reverseRec with
  | nil => rfl
  | append_singleton digits d ih =>
    have hd := is_odigit_iff.mp (hdigits d (by simp))
    have hdigit : d - chr '0' = UInt8.ofNat (digitVal d) := by
      rw [digitVal_eq, if_pos (by omega), UInt8.ofNat_sub (by omega) , UInt8.ofNat_toNat]
      rfl
    rw [List.foldl_append, List.foldl_cons, List.foldl_nil, ih fun e he => hdigits e (by simp [he]),
      digitsVal_append, hdigit, UInt8.ofNat_add, UInt8.ofNat_mul]
    rfl

theorem hex_value (hdigits : ∀ d ∈ digits, is_xdigit d = true) :
    digits.foldl (fun v ch => v * 16 + UInt8.ofNat (digitValue ch).toNat) 0 =
      UInt8.ofNat (digitsVal 16 digits) := by
  induction digits using List.reverseRec with
  | nil => rfl
  | append_singleton digits d ih =>
    rw [List.foldl_append, List.foldl_cons, List.foldl_nil, ih fun e he => hdigits e (by simp [he]),
      digitsVal_append, digitValue_toNat (hdigits d (by simp)), UInt8.ofNat_add, UInt8.ofNat_mul]
    rfl

end Escapes

/-! What the loop makes of the items of a string. -/

namespace Item

def isOctalDigit : Item → Bool
  | plain ch => is_odigit ch
  | _ => false

/-- The digits behind an octal escape that it takes with it. -/
def merged (i : Item) (rest : List Item) : List Item :=
  match i with
  | octal _ => rest.takeWhile isOctalDigit
  | _ => []

/-- The items that an item leaves. -/
def left (i : Item) (rest : List Item) : List Item :=
  match i with
  | octal _ => rest.dropWhile isOctalDigit
  | _ => rest

/-- The byte that the loop makes of an item. -/
def scanned (i : Item) (rest : List Item) : UInt8 :=
  match i with
  | octal digits => UInt8.ofNat (digitsVal 8 (digits ++ (i.merged rest).flatMap text))
  | simple ch => if forgotten ch then 0 else i.value
  | i => i.value

theorem merged_left (i : Item) (rest : List Item) : i.merged rest ++ i.left rest = rest := by
  cases i with
  | octal digits => exact List.takeWhile_append_dropWhile
  | plain ch | simple ch | hex x digits => rfl

theorem left_suffix (i : Item) (rest : List Item) : i.left rest <:+ i :: rest :=
  ⟨i :: i.merged rest, by rw [List.cons_append, merged_left]⟩

/-- The digits that are merged are digits. -/
theorem octal_text {rest : List Item} :
    ∀ d ∈ (rest.takeWhile isOctalDigit).flatMap text, is_odigit d = true := by
  intro d hd
  obtain ⟨j, hj, hd⟩ := List.mem_flatMap.mp hd
  have hdigit : isOctalDigit j = true := List.mem_takeWhile_imp hj
  cases j with
  | plain ch =>
    obtain rfl := List.mem_singleton.mp hd
    exact hdigit
  | simple ch | octal digits | hex x digits => cases hdigit

theorem left_length (i : Item) (rest : List Item) :
    (i.merged rest).length + (i.left rest).length = rest.length := by
  rw [← List.length_append, merged_left]

end Item

/-- The bytes that the loop writes with room for `n`. -/
@[grind] def written : Nat → List Item → List UInt8
  | 0, _ => []
  | _ + 1, [] => [0]
  | n + 1, i :: rest => i.scanned rest :: written n (i.left rest)

section Loop

variable {self : Token} {before follow : List UInt8} {items rest : List Item} {i : Item} {n : Nat}

/-- The first character of items, or the quote behind them. -/
theorem items_head (hvalid : ∀ i ∈ items, i.Valid (chr '"')) (follow : List UInt8) :
    ∃ x t, items.flatMap Item.text ++ chr '"' :: follow = x :: t ∧ x ≠ chr '\n' ∧
      (x = chr '\\' ∨ x = chr '"' ∨ ∃ rest, items = .plain x :: rest) := by
  cases items with
  | nil => exact ⟨chr '"', follow, rfl, by decide, .inr (.inl rfl)⟩
  | cons i rest =>
    have hi := hvalid i (List.mem_cons_self ..)
    cases i with
    | plain ch => exact ⟨ch, _, rfl, hi.2.2.1, .inr (.inr ⟨rest, rfl⟩)⟩
    | simple ch => exact ⟨chr '\\', _, rfl, by decide, .inl rfl⟩
    | octal digits => exact ⟨chr '\\', _, rfl, by decide, .inl rfl⟩
    | hex x digits => exact ⟨chr '\\', _, rfl, by decide, .inl rfl⟩

/-- A class that stops at the next item. -/
theorem items_stop {c : UInt8 → Bool} (hvalid : ∀ i ∈ items, i.Valid (chr '"'))
    (hslash : c (chr '\\') = false) (hquote : c (chr '"') = false)
    (hplain : ∀ ch rest, items = .plain ch :: rest → c ch = false) :
    ∀ x ∈ (items.flatMap Item.text ++ chr '"' :: follow).head?, c x = false := by
  intro x hx
  obtain ⟨y, t, heq, -, hy⟩ := items_head hvalid follow
  rw [heq] at hx
  obtain rfl : y = x := Option.some.inj hx
  rcases hy with rfl | rfl | ⟨rest, hitems⟩
  · exact hslash
  · exact hquote
  · exact hplain y rest hitems

theorem peek_items (hvalid : ∀ i ∈ items, i.Valid (chr '"')) (t : Token) :
    t.peek (items.flatMap Item.text ++ chr '"' :: follow) = t := by
  obtain ⟨x, u, heq, hnl, -⟩ := items_head hvalid follow
  rw [heq, Token.peek_cons _ _ hnl]

theorem proc_string_escape {t t' : Token} {c : UInt8} (hread : token_next_char self = (chr '\\', t))
    (heof : t.eof = false) (hescape : token_proc_escape t = (c, t')) (s : List UInt8) :
    token_proc_string (n + 1) s self = token_proc_string n (s ++ [c]) t' := by
  rw [token_proc_string, hread]
  simp only [heof, if_true, hescape]
  rfl

/-- One turn of the loop takes an item, and the digits that it merges with it. -/
theorem proc_string_item (h : At self before (i.text ++ ((i.merged rest).flatMap Item.text ++
      ((i.left rest).flatMap Item.text ++ chr '"' :: follow))))
    (hvalid : ∀ j ∈ i :: rest, j.Valid (chr '"')) (hapart : (i :: rest).IsChain Item.Apart)
    (s : List UInt8) :
    token_proc_string (n + 1) s self = token_proc_string n (s ++ [i.scanned rest])
      (self.goto (before.length + (i.text ++ (i.merged rest).flatMap Item.text).length)) := by
  have hi := hvalid i (List.mem_cons_self ..)
  have hrest : ∀ j ∈ rest, j.Valid (chr '"') := fun j hj => hvalid j (List.mem_cons_of_mem _ hj)
  have heof (k : Nat) : (self.goto k).eof = false := h.eof
  cases i with
  | plain ch =>
    have hread := At.next h hi.2.2.1
    rw [token_proc_string, hread]
    simp only [heof, hi.1, hi.2.1, if_false]
    rfl
  | simple ch =>
    have hread := At.next h (by decide)
    have hposition : (before ++ [chr '\\']).length + 1 =
        before.length + ((Item.simple ch).text ++ []).length := by
      simp [Item.text]
    rw [proc_string_escape hread (heof _) (escape_simple (At.cons h) hi), Token.goto_goto, hposition]
    rfl
  | octal digits =>
    obtain ⟨hne, -, hodigits⟩ := hi
    have hread := At.next h (by decide)
    have htaken : At (self.goto (before.length + 1)) (before ++ [chr '\\'])
        ((digits ++ (rest.takeWhile Item.isOctalDigit).flatMap Item.text) ++
          ((rest.dropWhile Item.isOctalDigit).flatMap Item.text ++ chr '"' :: follow)) := by
      rw [List.append_assoc]
      exact At.cons h
    have hdigits : ∀ d ∈ digits ++ (rest.takeWhile Item.isOctalDigit).flatMap Item.text,
        is_odigit d = true := by
      intro d hd
      rcases List.mem_append.mp hd with hd | hd
      · exact hodigits d hd
      · exact Item.octal_text d hd
    have hleft : ∀ j ∈ rest.dropWhile Item.isOctalDigit, j.Valid (chr '"') := fun j hj =>
      hrest j (List.dropWhile_subset _ hj)
    have hescape := escape_octal htaken (by simp [hne]) hdigits
      (items_stop hleft (by decide) (by decide) fun ch u hu => by
        have hhead := List.head?_dropWhile_not Item.isOctalDigit rest
        rw [hu] at hhead
        exact hhead)
    rw [peek_items hleft, octal_value hdigits, Token.goto_goto] at hescape
    have hposition : (before ++ [chr '\\']).length +
        (digits ++ (rest.takeWhile Item.isOctalDigit).flatMap Item.text).length = before.length +
          ((Item.octal digits).text ++ (rest.takeWhile Item.isOctalDigit).flatMap Item.text).length := by
      simp only [Item.text, List.length_append, List.length_cons, List.length_nil]
      omega
    rw [proc_string_escape hread (heof _) hescape, hposition]
    rfl
  | hex x digits =>
    obtain ⟨hx, -, hxdigits⟩ := hi
    have hline : At self before (chr '\\' :: ([x] ++
        (digits ++ (rest.flatMap Item.text ++ chr '"' :: follow)))) := h
    have hread := hline.next (by decide)
    have hescape := escape_hex hx hline.cons hxdigits
      (items_stop hrest (by decide) (by decide) fun ch u hu => by
        subst hu
        exact (List.isChain_cons_cons.mp hapart).1)
    rw [peek_items hrest, hex_value hxdigits, Token.goto_goto] at hescape
    have hposition : (before ++ [chr '\\']).length + 1 + digits.length =
        before.length + ((Item.hex x digits).text ++ []).length := by
      simp only [Item.text, List.length_append, List.length_cons, List.length_nil]
      omega
    rw [proc_string_escape hread (heof _) hescape, hposition]
    rfl

/-- The loop: what it writes, and where it stops when there is room. -/
theorem proc_string_items (hvalid : ∀ j ∈ items, j.Valid (chr '"'))
    (hapart : items.IsChain Item.Apart) (s : List UInt8)
    (h : At self before (items.flatMap Item.text ++ chr '"' :: follow)) :
    ∃ k, token_proc_string n s self = (self.goto k).write (s ++ written n items) ∧
      (items.length < n → k = before.length + (items.flatMap Item.text).length + 1) := by
  induction n generalizing self before s items with
  | zero =>
    refine ⟨self.position, ?_, fun hlt => absurd hlt (Nat.not_lt_zero _)⟩
    rw [written, List.append_nil]
    rfl
  | succ n ih =>
    cases items with
    | nil =>
      have hread := At.next h (by decide)
      have heof : (self.goto (before.length + 1)).eof = false := h.eof
      refine ⟨before.length + 1, ?_, fun _ => rfl⟩
      rw [token_proc_string, hread]
      simp only [heof]
      rfl
    | cons i rest =>
      have htext : rest.flatMap Item.text =
          (i.merged rest).flatMap Item.text ++ (i.left rest).flatMap Item.text := by
        rw [← List.flatMap_append, i.merged_left]
      have hline : At self before (i.text ++ ((i.merged rest).flatMap Item.text ++
          ((i.left rest).flatMap Item.text ++ chr '"' :: follow))) := by
        simpa [htext] using h
      have hat : At (self.goto (before.length +
          (i.text ++ (i.merged rest).flatMap Item.text).length))
          (before ++ (i.text ++ (i.merged rest).flatMap Item.text))
          ((i.left rest).flatMap Item.text ++ chr '"' :: follow) := by
        rw [← List.append_assoc] at hline
        exact hline.skip
      have hleft : i.left rest <:+ i :: rest := i.left_suffix rest
      obtain ⟨k, hrun, hk⟩ := ih (fun j hj => hvalid j (hleft.subset hj))
        (hapart.suffix hleft) (s ++ [i.scanned rest]) hat
      refine ⟨k, ?_, fun hlt => ?_⟩
      · rw [proc_string_item hline hvalid hapart, hrun, written, List.append_assoc, Token.goto_goto]
        rfl
      · have hlength := i.left_length rest
        rw [hk (by simp only [List.length_cons] at hlt; omega), List.flatMap_cons, htext]
        simp only [List.length_append]
        omega

theorem written_length (n : Nat) (items : List Item) :
    (written n items).length ≤ n ∧ (written n items).length ≤ items.length + 1 := by
  induction n generalizing items with
  | zero => exact ⟨le_refl _, Nat.zero_le _⟩
  | succ n ih =>
    cases items with
    | nil => exact ⟨by simp [written], by simp [written]⟩
    | cons i rest =>
      obtain ⟨hn, hitems⟩ := ih (i.left rest)
      have hlength := i.left_length rest
      simp only [written, List.length_cons]
      omega

/-- No digit stands behind an octal escape. -/
def Unmerged (i j : Item) : Prop :=
  ∀ digits ch, i = .octal digits → j = .plain ch → is_odigit ch = false

/-- Nothing is merged exactly when no digit stands behind. -/
theorem merged_nil_iff : i.merged rest = [] ↔ ∀ j ∈ rest.head?, Unmerged i j := by
  cases i with
  | plain ch | simple ch | hex x digits =>
    exact iff_of_true rfl fun j _ digits' ch hi => by cases hi
  | octal digits =>
    cases rest with
    | nil => exact iff_of_true rfl fun j hj => by cases hj
    | cons j rest =>
      have hfirst : (Item.octal digits).merged (j :: rest) = [] ↔ j.isOctalDigit = false := by
        rw [Item.merged, List.takeWhile_cons]
        cases j.isOctalDigit <;> simp
      rw [hfirst]
      constructor
      · rintro hj _ hk digits' ch - rfl
        obtain rfl := Option.some.inj hk
        exact hj
      · intro h
        cases j with
        | plain ch => exact h _ rfl digits ch rfl rfl
        | simple ch | octal digits' | hex x digits' => rfl

theorem left_of_merged (h : i.merged rest = []) : i.left rest = rest := by
  have happend := i.merged_left rest
  rwa [h, List.nil_append] at happend

/-- Where nothing is merged only the escapes that are not known come out wrong. -/
theorem scanned_iff (hmerged : i.merged rest = []) (hi : i.Valid (chr '"')) :
    i.scanned rest = i.value ↔ ∀ ch, i = .simple ch → forgotten ch = false := by
  cases i with
  | plain ch | hex x digits => exact iff_of_true rfl fun ch' h => by cases h
  | octal digits =>
    refine iff_of_true ?_ fun ch' h => by cases h
    rw [Item.scanned, hmerged, List.flatMap_nil, List.append_nil]
    rfl
  | simple ch =>
    rw [Item.scanned]
    cases hforgotten : forgotten ch with
    | false => exact iff_of_true rfl fun ch' h => by cases h; exact hforgotten
    | true =>
      have hch : ch = chr '\\' ∨ ch = chr '\'' ∨ ch = chr '?' := by
        simpa [forgotten, or_assoc] using hforgotten
      refine iff_of_false ?_ fun h => absurd hforgotten (by rw [h ch rfl]; decide)
      rcases hch with rfl | rfl | rfl <;> decide

theorem written_read (hvalid : ∀ j ∈ items, j.Valid (chr '"'))
    (hknown : ∀ ch, .simple ch ∈ items → forgotten ch = false)
    (hchain : items.IsChain Unmerged) (hlt : items.length < n) :
    written n items = items.map Item.value ++ [0] := by
  induction items generalizing n with
  | nil =>
    obtain ⟨n, rfl⟩ : ∃ m, n = m + 1 := ⟨n - 1, by simp at hlt; omega⟩
    rfl
  | cons i rest ih =>
    obtain ⟨n, rfl⟩ : ∃ m, n = m + 1 := ⟨n - 1, by simp at hlt; omega⟩
    rw [List.isChain_cons] at hchain
    have hmerged := merged_nil_iff.mpr hchain.1
    have hscanned := (scanned_iff hmerged (hvalid i (List.mem_cons_self ..))).mpr fun ch hi =>
      hknown ch (hi ▸ List.mem_cons_self ..)
    rw [written, left_of_merged hmerged, hscanned,
      ih (fun j hj => hvalid j (List.mem_cons_of_mem _ hj))
        (fun ch hch => hknown ch (List.mem_cons_of_mem _ hch)) hchain.2 (by simpa using hlt)]
    rfl

theorem read_of_written (hvalid : ∀ j ∈ items, j.Valid (chr '"'))
    (h : written n items = items.map Item.value ++ [0]) :
    (∀ ch, .simple ch ∈ items → forgotten ch = false) ∧ items.IsChain Unmerged := by
  induction items generalizing n with
  | nil => exact ⟨fun ch hch => (by cases hch), .nil⟩
  | cons i rest ih =>
    cases n with
    | zero => cases h
    | succ n =>
      rw [written, List.map_cons, List.cons_append] at h
      obtain ⟨hscanned, hleft⟩ := List.cons.inj h
      -- a merged digit would be missing at the end
      have hlength := i.left_length rest
      have hwritten := (written_length n (i.left rest)).2
      rw [hleft, List.length_append, List.length_map, List.length_singleton] at hwritten
      have hmerged : i.merged rest = [] := List.length_eq_zero_iff.mp (by omega)
      rw [left_of_merged hmerged] at hleft
      obtain ⟨hknown, hchain⟩ := ih (fun j hj => hvalid j (List.mem_cons_of_mem _ hj)) hleft
      refine ⟨fun ch hch => ?_, List.isChain_cons.mpr ⟨merged_nil_iff.mp hmerged, hchain⟩⟩
      rcases List.mem_cons.mp hch with hi | hch
      · exact (scanned_iff hmerged (hvalid i (List.mem_cons_self ..))).mp hscanned ch hi.symm
      · exact hknown ch hch

end Loop

namespace StrLit

variable {self : Token} {before follow : List UInt8} {l : StrLit}

theorem token_items (h : At self before (l.text ++ follow)) (hreplay : self.replay = false) :
    ∃ k, finsh_token_token self = some (.value_string,
        { ((self.write [0]).goto k).write (written FINSH_STRING_MAX l.items) with
          current_token := .value_string }) ∧
      (l.items.length < FINSH_STRING_MAX → k = before.length + l.text.length) := by
  have hline : At self before (chr '"' :: (l.items.flatMap Item.text ++ chr '"' :: follow)) := by
    simpa [text] using h
  obtain ⟨k, hrun, hk⟩ := proc_string_items l.valid l.apart [] (hline.write [0]).cons
  refine ⟨k, ?_, fun hlt => ?_⟩
  · rw [token_str hline hreplay, hrun]
    rfl
  · rw [hk hlt, text]
    simp only [List.length_append, List.length_cons, List.length_nil]
    omega

/-- A buffer that shows which of its bytes were not written. -/
theorem written_of_holds {w stale chars : List UInt8} (hpos : 0 < w.length)
    (hstale : stale = chars.map (· + 1))
    (h : (w ++ (0 :: stale.drop 1).drop w.length).take chars.length = chars) :
    chars.length ≤ w.length := by
  by_contra hlt
  have hlt : w.length < chars.length := Nat.lt_of_not_le hlt
  have hread := congrArg (·[w.length]?) h
  obtain ⟨n, hn⟩ : ∃ n, w.length = n + 1 := ⟨w.length - 1, by omega⟩
  have hdrop : (0 :: stale.drop 1).drop w.length = stale.drop w.length := by
    rw [hn, List.drop_succ_cons, List.drop_drop, Nat.add_comm]
  rw [hdrop, hstale] at hread
  simp only [List.getElem?_take_of_lt hlt, List.getElem?_append_right (le_refl w.length),
    Nat.sub_self, List.getElem?_drop, Nat.add_zero, List.getElem?_map,
    List.getElem?_eq_getElem hlt, Option.map_some, Option.some.injEq] at hread
  have hcode := congrArg UInt8.toNat hread
  rw [UInt8.toNat_add] at hcode
  have hbyte := chars[w.length].toNat_lt
  have hone : (1 : UInt8).toNat = 1 := rfl
  omega

theorem scans_iff (follow : List UInt8) : Scans (.str l) follow ↔ l.Read := by
  have hunfold : l.Read ↔ l.items.length < FINSH_STRING_MAX ∧
      (∀ ch, .simple ch ∈ l.items → forgotten ch = false) ∧ l.items.IsChain Unmerged := Iff.rfl
  rw [hunfold]
  constructor
  · intro h
    have hat := Token.start_at ((l.chars ++ [0]).map (· + 1)) (l.text ++ follow)
    obtain ⟨t, ht, hholds, -⟩ := h _ [] hat rfl
    obtain ⟨k, hrun, -⟩ := token_items hat rfl
    rw [hrun] at ht
    obtain rfl := (Prod.mk.inj (Option.some.inj ht)).2
    have hpos : 0 < (written FINSH_STRING_MAX l.items).length := by
      cases l.items <;> exact Nat.succ_pos _
    have hlength : (l.chars ++ [0]).length = l.items.length + 1 := by
      rw [List.length_append, chars, List.length_map]
      rfl
    have htake : (written FINSH_STRING_MAX l.items ++
        (0 :: (List.map (· + 1) (l.chars ++ [0])).drop 1).drop
          (written FINSH_STRING_MAX l.items).length).take (l.chars ++ [0]).length =
        l.chars ++ [0] := by
      rw [List.length_append]
      exact hholds
    have hge := written_of_holds hpos rfl htake
    obtain ⟨hmax, hitems⟩ := written_length FINSH_STRING_MAX l.items
    have hsame : (l.chars ++ [0]).length = (written FINSH_STRING_MAX l.items).length := by omega
    rw [hsame, List.take_left] at htake
    exact ⟨by omega, read_of_written l.valid htake⟩
  · rintro ⟨hlt, hknown, hchain⟩ self before h hreplay
    obtain ⟨k, hrun, hk⟩ := token_items h hreplay
    have hwritten := written_read l.valid hknown hchain hlt
    have hskip := (h.write [0]).skip
    refine ⟨_, hrun, ?_, .inl ⟨hskip.line, (hk hlt).trans hskip.position, hskip.eof⟩⟩
    have hlength : l.chars.length + 1 = (l.chars ++ [0]).length := by rw [List.length_append]; rfl
    show ((written FINSH_STRING_MAX l.items) ++ _).take (l.chars.length + 1) = l.chars ++ [0]
    rw [hwritten, hlength]
    exact List.take_left

end StrLit

/-- A literal with nothing behind it that could continue it becomes one token of its kind and value,
with the position behind it, exactly when it is one of those of `Literal.Read`. -/
theorem literal_scans (l : Literal) (follow : List UInt8)
    (h : ∀ ch ∈ follow.head?, ¬l.Continues ch) : Scans l follow ↔ l.Read follow := by
  cases l with
  | int l => exact IntLit.scans_iff (IntLit.stops h)
  | char l => exact l.scans_iff follow
  | str l => exact l.scans_iff follow

/-- An integer has letters and digits only, so nothing else continues it. -/
theorem IntLit.not_continues {l : IntLit} {ch : UInt8}
    (hch : (is_digit ch || is_alpha ch) = false) : ¬(Literal.int l).Continues ch := by
  have halnum (l : IntLit) : ∀ x ∈ l.text, (is_digit x || is_alpha x) = true := by
    have hmarked := l.marked
    have hdigit := l.digit
    intro x hx
    rcases List.mem_append.mp hx with hx | hx
    · cases hbase : l.base <;>
        simp only [hbase, Base.markers, List.mem_cons, List.not_mem_nil, or_false] at hmarked
      · rw [hmarked] at hx
        cases hx
      · rw [hmarked] at hx
        obtain rfl := List.mem_singleton.mp hx
        decide
      all_goals
        rcases hmarked with hm | hm <;>
          · rw [hm] at hx
            rcases List.mem_pair.mp hx with rfl | rfl <;> decide
    rcases List.mem_append.mp hx with hx | hx
    · have hd := hdigit x hx
      cases hbase : l.base <;> rw [hbase] at hd
      · rw [show is_digit x = true from hd]
        rfl
      · exact alnum_of_xdigit (odigit_val hd).1
      · exact alnum_of_xdigit hd
      · exact alnum_of_xdigit (bit_val hd).1
    · have hlong := l.long x (Option.mem_toList.mp hx)
      rw [isLong, Bool.or_eq_true, beq_iff_eq, beq_iff_eq] at hlong
      rcases hlong with rfl | rfl <;> decide
  rintro ⟨l', t, ht⟩
  obtain ⟨d, ds, htext, hd⟩ := l.text_head
  have hquoted {q : UInt8} {u : List UInt8} (hq : is_digit q = false) (hu : l'.text = q :: u) :
      False := by
    rw [Literal.text, htext, hu] at ht
    obtain ⟨rfl, -⟩ := List.cons.inj ht
    rw [hd] at hq
    cases hq
  cases l' with
  | int l' =>
    have hmem : ch ∈ l'.text := by
      have ht : (l.text ++ [ch]) ++ t = l'.text := ht
      rw [← ht]
      simp
    rw [halnum l' ch hmem] at hch
    cases hch
  | char l' => exact hquoted (q := chr '\'') (by decide) rfl
  | str l' => exact hquoted (q := chr '"') (by decide) rfl

/-- `12l` -/
def decLong : IntLit :=
  ⟨.dec, [], [chr '1', chr '2'], some (chr 'l'), by decide, by decide, by decide +kernel, by decide,
    by decide +kernel⟩

/-- `12l` in front of a semicolon. -/
theorem literal_scans_long : Scans (.int decLong) [chr ';'] :=
  (literal_scans _ [chr ';'] fun ch hch => IntLit.not_continues (by cases hch; decide)).mpr
    fun h => absurd h (by decide)

/-- `0x1L` -/
def hexLong : IntLit :=
  ⟨.hex, [chr '0', chr 'x'], [chr '1'], some (chr 'L'), by decide, by decide, by decide +kernel,
    by decide, by decide +kernel⟩

/-- `0x1L` is read as 28: the suffix is a digit to the loop. -/
theorem hex_long_lost :
    (finsh_token_token (Token.start [] (hexLong.text ++ [chr ';']))).map
        (fun r => (r.1, r.2.int_value)) = some (.value_int, 28) ∧
      (∀ ch ∈ [chr ';'].head?, ¬(Literal.int hexLong).Continues ch) ∧ ¬Scans (.int hexLong) [chr ';'] := by
  have hread : (finsh_token_token (Token.start [] (hexLong.text ++ [chr ';']))).map
      (fun r => (r.1, r.2.int_value)) = some (.value_int, 28) := by decide
  refine ⟨hread, fun ch hch => IntLit.not_continues (by cases hch; decide), fun h => ?_⟩
  obtain ⟨t, ht, -⟩ := h _ [] (Token.start_at [] _) rfl
  have ht : finsh_token_token (Token.start [] (hexLong.text ++ [chr ';'])) = some (hexLong.kind, t) := ht
  rw [ht] at hread
  cases hread

end Ab32Vg1.Finsh
