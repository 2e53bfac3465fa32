import Ab32Vg1.Finsh.ParserFrame

/-! The parser returns where no name runs up to the end of the line: every token that is not the end
takes characters, and each loop and each nested call takes a token. -/

namespace Ab32Vg1.Finsh

open ProofKit

/-- The states that reading a line token by token goes through, from the line's start, whichever
token is replayed and whatever the error number is. -/
inductive Reads (line : List UInt8) : Token → Prop
  | init (errno : Nat) : Reads line (finsh_token_init line errno)
  | run {t t' : Token} : Reads line t → token_run t = some t' → Reads line t'
  | replay {t : Token} (b : Bool) : Reads line t → Reads line { t with replay := b }
  | error {t : Token} (e : Nat) : Reads line t → Reads line { t with errno := e }

/-- Read token by token, no name runs up to the end of the line, and every token fits its buffer. -/
def NoNameAtEnd (line : List UInt8) : Prop :=
  ∀ t, Reads line t → NameAtEnd t = false ∧ (token_run t).isSome

/-- Every token function goes on in the line, or stays at its end. -/
def NeverBack (line : List UInt8) : Prop :=
  ∀ t, Reads line t → ∃ t', token_run t = some t' ∧
    (t'.eof = false → t.eof = false ∧ t.position < t'.position)

/-- Whatever is declared, the parser returns, given a block of the heap for each string. -/
def ParserReturns (line : List UInt8) : Prop :=
  ∀ (symbols : Symbols) (vars : List Var), (∀ k n, (symbols.heap_allocate k n).isSome) →
    ∃ n, (finsh_parser_run symbols n vars line).isSome

/-- Twice the characters left, and one for a token that is to be read again. -/
def Parser.left (p : Parser) : Nat :=
  2 * p.token.left + if p.token.replay = true ∧ p.token.current_token ≠ .eof then 1 else 0

/-- Nothing but the error number of the tokens changes. -/
def Quiet (p p' : Parser) : Prop := ∃ e, p'.token = { p.token with errno := e }

namespace Quiet

variable {p p1 p' : Parser}

theorem of_eq (h : p'.token = p.token) : Quiet p p' := ⟨p.token.errno, h⟩

theorem setError (p : Parser) (e : Nat) : Quiet p (p.setError e) := ⟨e, rfl⟩

theorem trans (h : Quiet p p1) (h' : Quiet p1 p') : Quiet p p' := by
  obtain ⟨e, he⟩ := h
  obtain ⟨e', he'⟩ := h'
  exact ⟨e', by rw [he', he]⟩

theorem left (h : Quiet p p') : p'.left = p.left := by
  obtain ⟨e, he⟩ := h
  rw [Parser.left, he, Parser.left]
  rfl

theorem reads {line : List UInt8} (h : Quiet p p') (hr : Reads line p.token) :
    Reads line p'.token := by
  obtain ⟨e, he⟩ := h
  rw [he]
  exact .error e hr

end Quiet

section Nodes

variable {symbols : Symbols} {p p' : Parser} {r : Node}

theorem allocate_quiet {type : NodeType} (h : finsh_node_allocate type p = (r, p')) : Quiet p p' := by
  rw [finsh_node_allocate] at h
  split at h <;> cases h <;> exact .of_eq rfl

theorem new_value_quiet {type : NodeType} (h : finsh_node_new_value type p = (r, p')) :
    Quiet p p' := by
  rw [finsh_node_new_value] at h
  rcases ha : finsh_node_allocate type p with ⟨node, p1⟩
  rw [ha] at h
  cases node with
  | null =>
    cases h
    exact (allocate_quiet ha).trans (.setError p1 _)
  | node =>
    cases h
    exact allocate_quiet ha

theorem new_id_quiet {id : List UInt8} (h : finsh_node_new_id symbols id p = (r, p')) :
    Quiet p p' := by
  rw [finsh_node_new_id] at h
  split at h
  · exact new_value_quiet h
  · cases h
    exact .setError p _

theorem make_sys_node_quiet {type : NodeType} {node1 node2 : Node}
    (h : make_sys_node type node1 node2 p = (r, p')) : Quiet p p' := by
  rw [make_sys_node.eq_def] at h
  rcases ha : finsh_node_allocate type p with ⟨node, p1⟩
  have hq := allocate_quiet ha
  rw [ha] at h
  cases node1 with
  | null =>
    cases h
    exact hq.trans (.setError p1 _)
  | node =>
    cases node with
    | null =>
      cases h
      exact hq.trans (.setError p1 _)
    | node =>
      cases h
      exact hq

theorem declare_quiet (id : List UInt8) (type : FinshType) (p : Parser) :
    Quiet p (declare id type p) := by
  rw [declare]
  split
  · exact .of_eq rfl
  · exact .setError p _

end Nodes

section Ends

variable {line : List UInt8} (hok : NoNameAtEnd line)

/-- A call that returns, with no more than `c` left. -/
def Ends {α : Type} (line : List UInt8) (c : Nat) (x : Option (α × Parser)) : Prop :=
  ∃ r p', x = some (r, p') ∧ Reads line p'.token ∧ p'.left ≤ c

theorem Ends.mono {α : Type} {x : Option (α × Parser)} {c c' : Nat} (h : Ends line c x) (hc : c ≤ c') :
    Ends line c' x := by
  obtain ⟨r, p', hx, hr, hl⟩ := h
  exact ⟨r, p', hx, hr, hl.trans hc⟩

/-- A call after which another returns. -/
theorem Ends.bind {α β : Type} {x : Option (α × Parser)} {f : α × Parser → Option (β × Parser)}
    {c c' : Nat} (h : Ends line c x)
    (hf : ∀ r p', Reads line p'.token → p'.left ≤ c → Ends line c' (f (r, p'))) :
    Ends line c' (x.bind f) := by
  obtain ⟨r, p', rfl, hr, hl⟩ := h
  exact hf r p' hr hl

theorem Ends.of_quiet {α : Type} {r : α} {p p' : Parser} {c : Nat} (h : Quiet p p')
    (hr : Reads line p.token) (hl : p.left ≤ c) : Ends line c (some (r, p')) :=
  ⟨r, p', rfl, h.reads hr, h.left.trans_le hl⟩

theorem replay_left (p : Parser) : p.replay.left ≤ p.left + 1 := by
  show 2 * p.token.left + _ ≤ 2 * p.token.left + _ + 1
  split <;> omega

/-- A replayed token leaves what was left before the replay. -/
theorem replay_read {p p1 : Parser} {token : TokenType} (h : next_token p.replay = some (token, p1)) :
    p1.left ≤ p.left := by
  have hrep : p.replay.token.replay = true := rfl
  rw [next_token, finsh_token_token, if_pos hrep] at h
  cases h
  show 2 * p.token.left + 0 ≤ 2 * p.token.left + _
  omega

include hok

theorem reads_line {t : Token} (h : Reads line t) :
    t.position ≤ t.line.length := by
  induction h with
  | init e => exact Nat.zero_le _
  | run ht hrun ih => exact (token_run_moves (hok _ ht).1 hrun).bound ih
  | replay b _ ih => exact ih
  | error e _ ih => exact ih

theorem token_run_left {t t' : Token} (ht : Reads line t) (h : token_run t = some t') :
    t'.left ≤ t.left - 1 := by
  have hm := token_run_moves (hok t ht).1 h
  have hb' := hm.bound (reads_line hok ht)
  rw [Token.left]
  cases he : t'.eof with
  | true => exact Nat.zero_le _
  | false =>
    have hpos := hm.position he
    have hl : t'.line.length = t.line.length := by rw [hm.line]
    rw [if_neg Bool.false_ne_true, Token.left, if_neg (by simp [hm.eof he])]
    omega

/-- A token read from a line. -/
theorem next_token_ends {p : Parser} (hr : Reads line p.token) :
    ∃ token p1, next_token p = some (token, p1) ∧ Reads line p1.token ∧ p1.token.replay = false ∧
      p1.token.current_token = token ∧ p1.left ≤ p.left ∧ (token ≠ .eof → p1.left < p.left) := by
  cases hrep : p.token.replay with
  | true =>
    have hread : next_token p = some (p.token.current_token,
        { p with token := { p.token with replay := false } }) := by
      rw [next_token, finsh_token_token, if_pos hrep]
      rfl
    refine ⟨_, _, hread, .replay false hr, rfl, rfl, ?_, fun hne => ?_⟩
    · show 2 * p.token.left + 0 ≤ 2 * p.token.left + _
      omega
    · show 2 * p.token.left + 0 < 2 * p.token.left + _
      rw [if_pos ⟨hrep, hne⟩]
      omega
  | false =>
    obtain ⟨t', ht'⟩ := Option.isSome_iff_exists.mp (hok _ hr).2
    have hread : next_token p = some (t'.current_token, { p with token := t' }) := by
      rw [next_token, finsh_token_token, if_neg (by simp [hrep]), ht']
      rfl
    have hm := token_run_moves (hok _ hr).1 ht'
    have hleft := token_run_left hok hr ht'
    have hrep' : t'.replay = false := hm.replay.trans hrep
    have heq : Parser.left { p with token := t' } = 2 * t'.left := by
      show 2 * t'.left + _ = 2 * t'.left
      rw [if_neg (by simp [hrep'])]
      rfl
    have heq' : p.left = 2 * p.token.left := by
      rw [Parser.left, if_neg (by simp [hrep])]
      rfl
    refine ⟨_, _, hread, .run hr ht', hrep', rfl, by omega, fun hne => ?_⟩
    have hpos : 0 < p.token.left := by
      rw [Token.left]
      cases he : p.token.eof with
      | true =>
        rw [token_run_of_eof he] at ht'
        cases ht'
        exact absurd rfl hne
      | false => exact Nat.succ_pos _
    omega

/-- A token that is read and replayed. -/
theorem peek_ends {p : Parser} (hr : Reads line p.token) :
    ∃ token p1, next_token p = some (token, p1) ∧ Reads line p1.token ∧ p1.left ≤ p.left ∧
      (token ≠ .eof → p1.left < p.left) ∧ p1.replay.left ≤ p.left ∧
      next_token p1.replay = some (token, p1) := by
  obtain ⟨token, p1, hread, hr1, hrep, hcur, hle, hlt⟩ := next_token_ends hok hr
  refine ⟨token, p1, hread, hr1, hle, hlt, ?_, ?_⟩
  · by_cases heof : token = .eof
    · refine le_trans (le_of_eq ?_) hle
      show 2 * p1.token.left + _ = 2 * p1.token.left + _
      have hcur' : p1.replay.token.current_token = .eof := hcur.trans heof
      rw [if_neg fun h => h.2 hcur', if_neg (by simp [hrep])]
    · have := replay_left p1
      have := hlt heof
      omega
  · have hsame : { p1.token with replay := false } = p1.token := by rw [← hrep]
    have hrep' : p1.replay.token.replay = true := rfl
    rw [next_token, finsh_token_token, if_pos hrep']
    show some (p1.token.current_token, { p1 with token := { p1.token with replay := false } }) = _
    rw [hsame, hcur]

/-! ### Tokens and types -/

theorem match_token_ends {p : Parser} (type : TokenType) (hr : Reads line p.token) :
    ∃ p', match_token type p = some p' ∧ Reads line p'.token ∧ p'.left ≤ p.left := by
  obtain ⟨token, p1, hread, hr1, hle, -, hrep, -⟩ := peek_ends hok hr
  refine ⟨check_token token type p1, by rw [match_token, hread]; rfl, ?_⟩
  rw [check_token]
  split
  · have hq : Quiet p1.replay (p1.setError FINSH_ERROR_INVALID_TOKEN).replay := ⟨_, rfl⟩
    exact ⟨hq.reads (.replay true hr1), hq.left.trans_le hrep⟩
  · exact ⟨hr1, hle⟩

theorem proc_pointer_ends {p : Parser} (type : FinshType) (hr : Reads line p.token) :
    Ends line p.left (proc_pointer type p) := by
  obtain ⟨token, p1, hread, hr1, hle, -, hrep, -⟩ := peek_ends hok hr
  rw [proc_pointer, hread]
  show Ends line p.left (if token = .mul then some (pointerType type, p1) else some (type, p1.replay))
  split
  · exact ⟨_, _, rfl, hr1, hle⟩
  · exact ⟨_, _, rfl, .replay true hr1, hrep⟩

/-- A type takes its first token where that starts one. -/
theorem proc_type_ends {p p1 : Parser} {token : TokenType} (hr : Reads line p.token)
    (hread : next_token p = some (token, p1)) :
    Ends line p.left (proc_type p) ∧ (startsDecl token = true → Ends line p1.left (proc_type p)) := by
  obtain ⟨token', p1', hread', hr1, hle, -, hrep, -⟩ := peek_ends hok hr
  rw [hread] at hread'
  obtain ⟨rfl, rfl⟩ := Prod.mk.inj (Option.some.inj hread')
  have herr {q : Parser} {c e : Nat} (hq : Reads line q.token) (hc : q.replay.left ≤ c) :
      Ends line c (some (FinshType.unknown, q.replay.setError e)) :=
    .of_quiet (.setError q.replay e) (.replay true hq) hc
  have hstart : startsDecl token = true → Ends line p1.left (proc_type p) := by
    intro hd
    rw [proc_type, hread]
    simp only [Option.bind_eq_bind, Option.bind_some]
    split
    · exact proc_pointer_ends hok _ hr1
    · next hnone =>
      have hun : token = .unsigned := by simpa [startsDecl, is_base_type, hnone] using hd
      obtain ⟨token2, p2, hread2, hr2, hle2, -, hrep2, -⟩ := peek_ends hok hr1
      rw [if_pos hun, hread2]
      simp only [Option.bind_some]
      split
      · exact (proc_pointer_ends hok _ hr2).mono hle2
      · exact herr hr2 hrep2
      · have hq : Quiet p2.replay (p2.replay.setError FINSH_ERROR_EXPECT_TYPE) := .setError _ _
        exact (proc_pointer_ends hok _ (hq.reads (.replay true hr2))).mono (hq.left.trans_le hrep2)
  refine ⟨?_, hstart⟩
  by_cases hd : startsDecl token = true
  · exact (hstart hd).mono hle
  · have hnone : baseType token = none := by
      cases hb : baseType token with
      | none => rfl
      | some b => exact absurd (by simp [startsDecl, is_base_type, hb]) hd
    have hun : token ≠ .unsigned := by
      rintro rfl
      exact hd rfl
    rw [proc_type, hread]
    simp only [Option.bind_eq_bind, Option.bind_some, hnone, if_neg hun]
    exact herr hr1 hrep

theorem proc_identifier_ends {p : Parser} (hr : Reads line p.token) :
    Ends line p.left (proc_identifier p) := by
  obtain ⟨p1, hm, hr1, hle⟩ := match_token_ends hok .identifier hr
  rw [proc_identifier, hm]
  exact ⟨_, _, rfl, hr1, hle⟩

/-! ### Expressions -/

/-- A function that returns with less than `b` left, and takes the first token. -/
def Total (line : List UInt8) (b : Nat) (f : Proc) : Prop :=
  ∀ p token p1, Reads line p.token → p.left < b → next_token p = some (token, p1) →
    Ends line p1.left (f p)

variable {symbols : Symbols} (hheap : ∀ k n, (symbols.heap_allocate k n).isSome)
  {operand assign cast : Proc} {b n : Nat} {p : Parser}

theorem Total.ends {f : Proc} (h : Total line b f) (hr : Reads line p.token) (hb : p.left < b) :
    Ends line p.left (f p) := by
  obtain ⟨token, p1, hread, -, -, -, hle, -⟩ := next_token_ends hok hr
  exact (h p token p1 hr hb hread).mono hle

theorem binaryLoop_ends (ho : Total line b operand) {op : TokenType → Option BinOp}
    (hop : op .eof = none) (left : Node) (hr : Reads line p.token) (hb : p.left < b)
    (hn : p.left < n) : Ends line p.left (binaryLoop operand op n left p) := by
  induction n generalizing left p with
  | zero => omega
  | succ n ih =>
    obtain ⟨token, p1, hread, hr1, hle, hlt, hrep, -⟩ := peek_ends hok hr
    rw [binaryLoop, hread]
    simp only [Option.bind_eq_bind, Option.bind_some]
    split
    · exact ⟨_, _, rfl, .replay true hr1, hrep⟩
    · next op' hsome =>
      have hlt := hlt (fun heof => by rw [heof, hop] at hsome; cases hsome)
      refine Ends.bind (ho.ends hok hr1 (by omega)) fun right p2 hr2 hle2 => ?_
      cases right with
      | null =>
        have hq : Quiet p2 (p2.setError FINSH_ERROR_EXPECT_OPERATOR) := .setError _ _
        have hl := hq.left
        exact (ih left (hq.reads hr2) (by omega) (by omega)).mono (by omega)
      | node t d a c s =>
        rcases hm : make_sys_node (.SYS_BIN op') left (.node t d a c s) p2 with ⟨node, p3⟩
        have hq := make_sys_node_quiet hm
        have hl := hq.left
        simp only [hm]
        exact (ih node (hq.reads hr2) (by omega) (by omega)).mono (by omega)

theorem proc_binary_expr_total (ho : Total line b operand) {op : TokenType → Option BinOp}
    (hop : op .eof = none) (hn : b ≤ n) : Total line b (proc_binary_expr operand op n) := by
  intro p token p1 hr hb hread
  obtain ⟨token', p1', hread', -, -, -, hle, -⟩ := next_token_ends hok hr
  rw [hread] at hread'
  obtain ⟨rfl, rfl⟩ := Prod.mk.inj (Option.some.inj hread')
  refine Ends.bind (ho p token p1 hr hb hread) fun left p2 hr2 hle2 => ?_
  exact (binaryLoop_ends hok ho hop left hr2 (by omega) (by omega)).mono hle2

theorem proc_inclusive_or_expr_total (hc : Total line b cast) (hn : b ≤ n) :
    Total line b (proc_inclusive_or_expr cast n) :=
  proc_binary_expr_total hok (proc_binary_expr_total hok (proc_binary_expr_total hok
    (proc_binary_expr_total hok (proc_binary_expr_total hok (proc_binary_expr_total hok hc rfl hn)
      rfl hn) rfl hn) rfl hn) rfl hn) rfl hn

theorem paramLoop_ends (ha : Total line b assign) (params : List Node) (hr : Reads line p.token)
    (hb : p.left < b) (hn : p.left < n) : Ends line p.left (paramLoop assign n params p) := by
  induction n generalizing params p with
  | zero => omega
  | succ n ih =>
    obtain ⟨token, p1, hread, hr1, hle, hlt, hrep, -⟩ := peek_ends hok hr
    rw [paramLoop, hread]
    show Ends line p.left (if token = .comma then _ else _)
    split
    · next hcomma =>
      have hlt := hlt (by rw [hcomma]; decide)
      refine Ends.bind (ha.ends hok hr1 (by omega)) fun param p2 hr2 hle2 => ?_
      cases param with
      | null =>
        have hq : Quiet p2 (p2.setError FINSH_ERROR_EXPECT_OPERATOR) := .setError _ _
        have hl := hq.left
        exact (ih params (hq.reads hr2) (by omega) (by omega)).mono (by omega)
      | node t d a c s => exact (ih _ hr2 (by omega) (by omega)).mono (by omega)
    · exact ⟨_, _, rfl, .replay true hr1, hrep⟩

theorem proc_param_list_ends (ha : Total line b assign) (hr : Reads line p.token) (hb : p.left < b)
    (hn : p.left < n) : Ends line p.left (proc_param_list assign n p) := by
  refine Ends.bind (ha.ends hok hr hb) fun param p1 hr1 hle => ?_
  cases param with
  | null => exact ⟨_, _, rfl, hr1, hle⟩
  | node t d a c s =>
    refine Ends.bind ((paramLoop_ends hok ha _ hr1 (by omega) (by omega)).mono hle)
      fun params p2 hr2 hle2 => ?_
    exact ⟨_, _, rfl, hr2, hle2⟩

include hheap

omit hok in
theorem new_string_ends {c : Nat} (hr : Reads line p.token) (hc : p.left ≤ c) :
    Ends line c (finsh_node_new_string symbols p) := by
  rw [finsh_node_new_string]
  split
  · exact .of_quiet (.setError p _) hr hc
  · obtain ⟨ptr, hptr⟩ := Option.isSome_iff_exists.mp
      (hheap p.strings ((cstr p.token.string).length + 1))
    rw [hptr]
    exact ⟨_, _, rfl, hr, hc⟩

theorem proc_primary_expr_ends {token : TokenType} {p1 : Parser} (ha : Total line b assign)
    (hr : Reads line p.token) (hb : p.left ≤ b) (hread : next_token p = some (token, p1)) :
    Ends line p1.left (proc_primary_expr symbols assign p) := by
  obtain ⟨token', p1', hread', hr1, hle, hlt, -, hagain⟩ := peek_ends hok hr
  rw [hread] at hread'
  obtain ⟨rfl, rfl⟩ := Prod.mk.inj (Option.some.inj hread')
  rw [proc_primary_expr, hread, Option.bind_eq_bind, Option.bind_some]
  dsimp only
  have hvalue (type : NodeType) : Ends line p1.left (some (finsh_node_new_value type p1)) := by
    rcases hv : finsh_node_new_value type p1 with ⟨node, p2⟩
    exact .of_quiet (new_value_quiet hv) hr1 (Nat.le_refl _)
  cases token with
  | identifier =>
    have hid : proc_identifier p1.replay = some ((cstr p1.token.string).take FINSH_NAME_MAX, p1) := by
      rw [proc_identifier, match_token, hagain]
      rfl
    show Ends line p1.left ((proc_identifier p1.replay).bind _)
    rw [hid]
    rcases hn : finsh_node_new_id symbols ((cstr p1.token.string).take FINSH_NAME_MAX) p1 with
      ⟨node, p2⟩
    show Ends line p1.left (some (finsh_node_new_id symbols _ p1))
    rw [hn]
    exact .of_quiet (new_id_quiet hn) hr1 (Nat.le_refl _)
  | left_paren =>
    have hlt := hlt (by decide)
    refine Ends.bind (ha.ends hok hr1 (by omega)) fun node p2 hr2 hle2 => ?_
    obtain ⟨p3, hm, hr3, hle3⟩ := match_token_ends hok .right_paren hr2
    show Ends line p1.left ((match_token .right_paren p2).bind _)
    rw [hm]
    exact ⟨_, _, rfl, hr3, hle3.trans hle2⟩
  | value_int | value_long | value_char | value_null => exact hvalue _
  | value_string => exact new_string_ends hheap hr1 (Nat.le_refl _)
  | _ => exact .of_quiet (.setError p1 _) hr1 (Nat.le_refl _)

omit hheap in
theorem proc_call_ends (ha : Total line b assign) (hr : Reads line p.token) (hb : p.left < b)
    (hn : p.left < n) : Ends line p.left (proc_call assign n p) := by
  obtain ⟨token, p1, hread, hr1, hle, -, hrep, -⟩ := peek_ends hok hr
  rw [proc_call, hread]
  show Ends line p.left (if token ≠ .right_paren then _ else _)
  split
  · refine Ends.bind ((proc_param_list_ends hok ha (.replay true hr1) (by omega) (by omega)).mono hrep)
      fun params p2 hr2 hle2 => ?_
    obtain ⟨p3, hm, hr3, hle3⟩ := match_token_ends hok .right_paren hr2
    show Ends line p.left ((match_token .right_paren p2).bind _)
    rw [hm]
    exact ⟨_, _, rfl, hr3, hle3.trans hle2⟩
  · exact ⟨_, _, rfl, hr1, hle⟩

omit hheap in
theorem postfixLoop_ends (ha : Total line b assign) {m : Nat} (node : Node) (hr : Reads line p.token)
    (hb : p.left ≤ b) (hm : p.left < m) (hn : p.left < n) :
    Ends line p.left (postfixLoop assign m n node p) := by
  induction n generalizing node p with
  | zero => omega
  | succ n ih =>
    obtain ⟨token, p1, hread, hr1, hle, hlt, hrep, -⟩ := peek_ends hok hr
    rw [postfixLoop, hread, Option.bind_eq_bind, Option.bind_some]
    dsimp only
    have hmake {type : NodeType} {params : Node} {p2 : Parser} (hr2 : Reads line p2.token)
        (hlt : p2.left < p.left) : Ends line p.left (postfixLoop assign m n
          (make_sys_node type node params p2).1 (make_sys_node type node params p2).2) := by
      rcases hm : make_sys_node type node params p2 with ⟨node', p3⟩
      have hq := make_sys_node_quiet hm
      have hl := hq.left
      exact (ih node' (hq.reads hr2) (by omega) (by omega) (by omega)).mono (by omega)
    cases token with
    | inc | dec => exact hmake hr1 (hlt (by decide))
    | left_paren =>
      have hlt := hlt (by decide)
      refine Ends.bind (proc_call_ends hok ha hr1 (by omega) (by omega)) fun params p2 hr2 hle2 => ?_
      have hlt2 : p2.left < p.left := by omega
      exact hmake hr2 hlt2
    | _ => exact ⟨_, _, rfl, .replay true hr1, hrep⟩

theorem proc_postfix_expr_ends {token : TokenType} {p1 : Parser} (ha : Total line b assign)
    (hr : Reads line p.token) (hb : p.left ≤ b) (hn : p.left < n)
    (hread : next_token p = some (token, p1)) :
    Ends line p1.left (proc_postfix_expr symbols assign n p) := by
  obtain ⟨token', p1', hread', -, -, -, hle, -⟩ := next_token_ends hok hr
  rw [hread] at hread'
  obtain ⟨rfl, rfl⟩ := Prod.mk.inj (Option.some.inj hread')
  refine Ends.bind (proc_primary_expr_ends hok hheap ha hr hb hread) fun node p2 hr2 hle2 => ?_
  exact (postfixLoop_ends hok ha node hr2 (by omega) (by omega) (by omega)).mono hle2

theorem proc_unary_expr_ends {token : TokenType} {p1 : Parser} (ha : Total line b assign)
    (hc : Total line b cast) (hr : Reads line p.token) (hb : p.left ≤ b) (hn : p.left < n)
    (hread : next_token p = some (token, p1)) :
    Ends line p1.left (proc_unary_expr symbols assign cast n p) := by
  obtain ⟨token', p1', hread', hr1, hle, hlt, hrep, hagain⟩ := peek_ends hok hr
  rw [hread] at hread'
  obtain ⟨rfl, rfl⟩ := Prod.mk.inj (Option.some.inj hread')
  rw [proc_unary_expr, hread]
  show Ends line p1.left (if token = .add then _ else if token = .sub then _ else _)
  split
  · next heq =>
    have hlt := hlt (by rw [heq]; decide)
    exact hc.ends hok hr1 (by omega)
  split
  · next heq =>
    have hlt := hlt (by rw [heq]; decide)
    refine Ends.bind (hc.ends hok hr1 (by omega)) fun operand p2 hr2 hle2 => ?_
    rcases hz : finsh_node_new_value (.VALUE_LONG 0) p2 with ⟨zero, p3⟩
    rcases hm : make_sys_node (.SYS_BIN .sub) zero operand p3 with ⟨node, p4⟩
    simp only [hz, hm]
    exact .of_quiet ((new_value_quiet hz).trans (make_sys_node_quiet hm)) hr2 hle2
  split
  · next type hsome =>
    have hlt := hlt (by rintro rfl; cases hsome)
    refine Ends.bind (hc.ends hok hr1 (by omega)) fun operand p2 hr2 hle2 => ?_
    rcases hm : make_sys_node type operand .null p2 with ⟨node, p3⟩
    simp only [hm]
    exact .of_quiet (make_sys_node_quiet hm) hr2 hle2
  · exact proc_postfix_expr_ends hok hheap ha (.replay true hr1) (by omega) (by omega) hagain

/-- Casts and expressions return, given a bound on the calls of twice what is left. -/
theorem proc_cast_assign_total (n : Nat) :
    (∀ b, 2 * b + 1 ≤ n → Total line b (proc_cast_expr symbols n)) ∧
      (∀ b, 2 * b + 2 ≤ n → Total line b (proc_assign_expr symbols n)) := by
  induction n with
  | zero => exact ⟨fun b hb => by omega, fun b hb => by omega⟩
  | succ n ih =>
    obtain ⟨ihc, iha⟩ := ih
    refine ⟨fun b hn p token p1 hr hb hread => ?_, fun b hn p token p1 hr hb hread => ?_⟩
    · obtain ⟨token', p1', hread', hr1, hle, hlt, hrep, hagain⟩ := peek_ends hok hr
      rw [hread] at hread'
      obtain ⟨rfl, rfl⟩ := Prod.mk.inj (Option.some.inj hread')
      have ha := iha (b - 1) (by omega)
      have hc := ihc (b - 1) (by omega)
      rw [proc_cast_expr, hread]
      show Ends line p1.left (if token = .left_paren then _ else _)
      split
      · next heq =>
        have hlt := hlt (by rw [heq]; decide)
        obtain ⟨token2, p2, hread2, -⟩ := next_token_ends hok hr1
        refine Ends.bind (proc_type_ends hok hr1 hread2).1 fun type p2 hr2 hle2 => ?_
        obtain ⟨p3, hm, hr3, hle3⟩ := match_token_ends hok .right_paren hr2
        show Ends line p1.left ((match_token .right_paren p2).bind _)
        rw [hm]
        refine Ends.bind (hc.ends hok hr3 (by omega)) fun cast p4 hr4 hle4 => ?_
        cases cast with
        | null =>
          have hrep4 := replay_left p4
          have hr4 : Reads line p4.replay.token := .replay true hr4
          obtain ⟨token5, p5, hread5, -⟩ := next_token_ends hok hr4
          have hle5 := replay_read hread5
          exact (proc_unary_expr_ends hok hheap ha hc hr4 (by omega) (by omega) hread5).mono (by omega)
        | node t d a c s => exact ⟨_, _, rfl, hr4, by omega⟩
      · exact proc_unary_expr_ends hok hheap ha hc (.replay true hr1) (by omega) (by omega) hagain
    · have hc := ihc b (by omega)
      have ha := iha (b - 1) (by omega)
      refine Ends.bind (proc_inclusive_or_expr_total hok hc (by omega) p token p1 hr hb hread)
        fun or p2 hr2 hle2 => ?_
      obtain ⟨token', p1', hread', -, -, -, hle, -⟩ := next_token_ends hok hr
      rw [hread] at hread'
      obtain ⟨rfl, rfl⟩ := Prod.mk.inj (Option.some.inj hread')
      obtain ⟨token3, p3, hread3, hr3, hle3, hlt3, hrep3, -⟩ := peek_ends hok hr2
      show Ends line p1.left ((next_token p2).bind _)
      rw [hread3]
      show Ends line p1.left (if token3 = .assign then _ else _)
      split
      · next heq =>
        have hlt3 := hlt3 (by rw [heq]; decide)
        refine Ends.bind (ha.ends hok hr3 (by omega)) fun assign p4 hr4 hle4 => ?_
        rcases hm : make_sys_node .SYS_ASSIGN or assign p4 with ⟨node, p5⟩
        simp only [hm]
        exact .of_quiet (make_sys_node_quiet hm) hr4 (by omega)
      · exact ⟨_, _, rfl, .replay true hr3, by omega⟩

/-! ### Statements -/

omit hok hheap in
theorem left_le_replay (p : Parser) : p.left ≤ p.replay.left := by
  show 2 * p.token.left + _ ≤ 2 * p.token.left + _
  split
  · next h => rw [if_pos ⟨rfl, h.2⟩]
  · exact Nat.le_add_right _ _

omit hheap in
/-- The right side of a declarator, whose token was read with `c` left. -/
theorem declInit_ends (ha : Total line b assign) (symbols : Symbols) (id : List UInt8)
    (nodes : List Node) {token : TokenType} {c : Nat} (hr : Reads line p.token) (hb : p.left < b)
    (hc : p.replay.left ≤ c) (hlt : token ≠ .eof → p.left < c) :
    ∃ nodes' token' p', declInit symbols assign id nodes token p = some (nodes', token', p') ∧
      Reads line p'.token ∧ p'.left ≤ p.left ∧ p'.replay.left ≤ c ∧
      (token' = .comma → p'.left < c) := by
  rw [declInit]
  split
  · next heq =>
    have hlt := hlt (by rw [heq]; decide)
    obtain ⟨node, p1, hassign, hr1, hle1⟩ := ha.ends hok hr hb
    rw [hassign]
    cases node with
    | null =>
      have hrep := replay_left p1
      exact ⟨nodes, token, p1, rfl, hr1, hle1, by omega, fun _ => by omega⟩
    | node t d a c' s =>
      rcases hid : finsh_node_new_id symbols id p1 with ⟨idnode, p2⟩
      rcases hm : make_sys_node .SYS_ASSIGN idnode (.node t d a c' s) p2 with ⟨node, p3⟩
      have hq := (new_id_quiet hid).trans (make_sys_node_quiet hm)
      have hl := hq.left
      obtain ⟨token4, p4, hread4, hr4, hle4, -, hrep4, -⟩ := peek_ends hok (hq.reads hr1)
      refine ⟨if node = .null then nodes else nodes ++ [node], token4, p4, ?_, hr4, by omega, by omega,
        fun _ => by omega⟩
      simp only [Option.bind_eq_bind, Option.bind_some, hid, hm, hread4]
      rfl
  · next hne =>
    refine ⟨nodes, token, p, rfl, hr, Nat.le_refl _, hc, fun heq => hlt ?_⟩
    rw [heq]
    decide

omit hheap in
theorem declLoop_ends (ha : Total line b assign) {type : FinshType} {nodes : List Node}
    {token : TokenType} (hr : Reads line p.token) (hb : p.left < b) (hpos : 1 ≤ n)
    (hn : token = .comma → p.left + 2 ≤ n) :
    Ends line p.replay.left (declLoop symbols assign type n nodes token p) := by
  induction n generalizing nodes token p with
  | zero => omega
  | succ n ih =>
    have hself := left_le_replay p
    rw [declLoop]
    split
    · next heq =>
      have hn := hn heq
      refine Ends.bind (proc_identifier_ends hok hr) fun id p1 hr1 hle1 => ?_
      have hq := declare_quiet id type p1
      have hl := hq.left
      obtain ⟨token2, p2, hread2, hr2, hle2, hlt2, hrep2, -⟩ := peek_ends hok (hq.reads hr1)
      show Ends line p.replay.left ((next_token (declare id type p1)).bind _)
      rw [hread2]
      obtain ⟨nodes', token3, p3, hinit, hr3, hle3, hrep3, hlt3⟩ :=
        declInit_ends hok ha symbols id nodes hr2 (by omega) hrep2 hlt2
      show Ends line p.replay.left ((declInit symbols assign id nodes token2 p2).bind _)
      rw [hinit]
      exact (ih hr3 (by omega) (by omega) fun h => by have := hlt3 h; omega).mono (by omega)
    · have hq : Quiet p.replay (p.setError FINSH_ERROR_INVALID_TOKEN).replay := ⟨_, rfl⟩
      rw [check_token]
      split
      · exact ⟨_, _, rfl, hq.reads (.replay true hr), hq.left.le⟩
      · exact ⟨_, _, rfl, hr, hself⟩

theorem proc_variable_decl_ends {token : TokenType} {p1 : Parser} (hr : Reads line p.token)
    (hb : p.left < b) (hn : 2 * b + 2 ≤ n) (hread : next_token p = some (token, p1))
    (hd : startsDecl token = true) : Ends line p1.left (proc_variable_decl symbols n p) := by
  have ha := (proc_cast_assign_total hok hheap n).2 b hn
  obtain ⟨token', p1', hread', -, -, -, hle, -⟩ := next_token_ends hok hr
  rw [hread] at hread'
  obtain ⟨rfl, rfl⟩ := Prod.mk.inj (Option.some.inj hread')
  refine Ends.bind ((proc_type_ends hok hr hread).2 hd) fun type p2 hr2 hle2 => ?_
  refine Ends.bind ((proc_identifier_ends hok hr2).mono hle2) fun id p3 hr3 hle3 => ?_
  have hq := declare_quiet id type p3
  have hl := hq.left
  obtain ⟨token4, p4, hread4, hr4, hle4, hlt4, hrep4, -⟩ := peek_ends hok (hq.reads hr3)
  show Ends line p1.left ((next_token (declare id type p3)).bind _)
  rw [hread4]
  show Ends line p1.left (if token4 = .comma ∨ token4 = .assign then _ else _)
  split
  · obtain ⟨nodes, token5, p5, hinit, hr5, hle5, hrep5, hlt5⟩ :=
      declInit_ends hok ha symbols id [] hr4 (by omega) hrep4 hlt4
    show Ends line p1.left ((declInit symbols _ id [] token4 p4).bind _)
    rw [hinit]
    refine Ends.bind ((declLoop_ends hok ha hr5 (by omega) (by omega) fun _ => by omega).mono
      (by omega)) fun nodes' p6 hr6 hle6 => ?_
    exact ⟨_, _, rfl, hr6, by omega⟩
  · split
    · exact ⟨_, _, rfl, hr4, by omega⟩
    · exact .of_quiet (.setError p4 _) hr4 (by omega)

theorem proc_expr_statement_ends {token : TokenType} {p1 : Parser} (hr : Reads line p.token)
    (hb : p.left < b) (hn : 2 * b + 2 ≤ n) (hread : next_token p = some (token, p1)) :
    Ends line p1.left (proc_expr_statement symbols n p) := by
  have ha := (proc_cast_assign_total hok hheap n).2 b hn
  obtain ⟨token', p1', hread', hr1, hle, -, hrep, hagain⟩ := peek_ends hok hr
  rw [hread] at hread'
  obtain ⟨rfl, rfl⟩ := Prod.mk.inj (Option.some.inj hread')
  rw [proc_expr_statement, hread]
  show Ends line p1.left (if token ≠ .semicolon then _ else _)
  split
  · have hr1' : Reads line p1.replay.token := .replay true hr1
    refine Ends.bind (ha _ _ _ hr1' (by omega) hagain) fun expr p2 hr2 hle2 => ?_
    obtain ⟨p3, hm, hr3, hle3⟩ := match_token_ends hok .semicolon hr2
    show Ends line p1.left ((match_token .semicolon p2).bind _)
    rw [hm]
    exact ⟨_, _, rfl, hr3, hle3.trans hle2⟩
  · exact ⟨_, _, rfl, hr1, Nat.le_refl _⟩

omit hheap in
theorem skipToken_ends (token : TokenType) (hr : Reads line p.token) :
    ∃ p', skipToken token p = some p' ∧ Reads line p'.token ∧ p'.left ≤ p.left := by
  rw [skipToken]
  split
  · exact ⟨p, rfl, hr, Nat.le_refl _⟩
  · obtain ⟨token1, p1, hread, hr1, -, -, hle, -⟩ := next_token_ends hok hr
    rw [hread]
    exact ⟨p1, rfl, hr1, hle⟩

/-- Every turn of the loop takes the token that a statement starts with. -/
theorem parserLoop_ends {token : TokenType} (before : List Node) (after : Node)
    (hr : Reads line p.token) (hread : next_token p.replay = some (token, p)) (hpos : 1 ≤ n)
    (hn : token ≠ .eof → 2 * p.left + 7 ≤ n) :
    (parserLoop symbols n token before after p).isSome := by
  induction n generalizing token before after p with
  | zero => omega
  | succ n ih =>
    rw [parserLoop]
    split
    · rfl
    · next hne =>
      have hn := hn fun heof => hne (.inl heof)
      have hr' : Reads line p.replay.token := .replay true hr
      have hrep := replay_left p
      have hstmt : Ends line p.left (proc_statement symbols n token p) := by
        rw [proc_statement]
        split
        · next hd =>
          exact proc_variable_decl_ends hok hheap hr' (Nat.lt_succ_self _) (by omega) hread hd
        · exact proc_expr_statement_ends hok hheap hr' (Nat.lt_succ_self _) (by omega) hread
      have hnext {q : Parser} (before : List Node) (after : Node) (hq : Reads line q.token)
          (hle : q.left ≤ p.left) :
          ((next_token q).bind fun x => parserLoop symbols n x.1 before after x.2).isSome := by
        obtain ⟨token3, p3, hread3, hr3, hle3, hlt3, -, hagain3⟩ := peek_ends hok hq
        rw [hread3]
        refine ih before after hr3 hagain3 (by omega) fun h => ?_
        have := hlt3 h
        show 2 * p3.left + 7 ≤ n
        omega
      obtain ⟨node, p1, hs, hr1, hle1⟩ := hstmt
      rw [hs]
      cases node with
      | null =>
        show (if before = [] then _ else _ : Option _).isSome
        split
        · rfl
        · obtain ⟨p2, hskip, hr2, hle2⟩ := skipToken_ends hok token hr1
          show ((skipToken token p1).bind _).isSome
          rw [hskip]
          exact hnext before .null hr2 (hle2.trans hle1)
      | node t d a c s => exact hnext _ _ hr1 hle1

end Ends

/-- Where no name runs up to the end of the line the parser returns. -/
theorem parser_run_ends {line : List UInt8} (hok : NoNameAtEnd line) : ParserReturns line := by
  intro symbols vars hheap
  have hinit : Reads line (Parser.init vars line).token := .init FINSH_ERROR_OK
  obtain ⟨token, p, hread, hr, -, -, -, hagain⟩ := peek_ends hok hinit
  refine ⟨2 * p.left + 7, ?_⟩
  rw [finsh_parser_run, hread]
  exact parserLoop_ends hok hheap [] .null hr hagain (by omega) fun _ => Nat.le_refl _

/-- The parser returns, and no token function goes back from the end of the line, just where no name
runs up to the end. -/
theorem finsh_parser_terminates (line : List UInt8) :
    (ParserReturns line ∧ NeverBack line) ↔ NoNameAtEnd line := by
  constructor
  · rintro ⟨-, hback⟩ t ht
    obtain ⟨t', hrun, hmove⟩ := hback t ht
    refine ⟨?_, Option.isSome_iff_exists.mpr ⟨t', hrun⟩⟩
    cases hname : NameAtEnd t with
    | false => rfl
    | true =>
      obtain ⟨heof, hpos⟩ := get_string_back hname hrun
      have := (hmove heof).2
      omega
  · intro hok
    refine ⟨parser_run_ends hok, fun t ht => ?_⟩
    obtain ⟨hname, hsome⟩ := hok t ht
    obtain ⟨t', hrun⟩ := Option.isSome_iff_exists.mp hsome
    have hm := token_run_moves hname hrun
    refine ⟨t', hrun, fun he => ⟨hm.eof he, ?_⟩⟩
    have := hm.position he
    omega

/-! ### Lines that end in a separator -/

/-- The last character of the line, before its end or a newline, is no letter, digit or `_`. -/
def EndsInSeparator (text : List UInt8) : Prop :=
  ∀ i ch, text[i]? = some ch → (text[i + 1]? = none ∨ text[i + 1]? = some (chr '\n')) →
    is_separator ch = true

/-- A character read, and where. -/
theorem next_char_read {t t' : Token} {ch : UInt8} (h : token_next_char t = (ch, t'))
    (he : t.eof = false) :
    (t'.eof = true ∧ (t.line[t.position]? = none ∨ t.line[t.position]? = some (chr '\n'))) ∨
      (t'.eof = false ∧ t'.position = t.position + 1 ∧ t'.line = t.line ∧
        t.line[t.position]? = some ch) := by
  rw [token_next_char, if_neg (by simp [he])] at h
  split at h
  · next hnone =>
    cases h
    exact .inl ⟨rfl, .inl hnone⟩
  · next c hc =>
    split at h
    · next hnl =>
      cases h
      exact .inl ⟨rfl, .inr (by rw [hc, hnl])⟩
    · cases h
      exact .inr ⟨he, rfl, rfl, hc⟩

/-- A loop that meets the end has read the last character. -/
theorem while_at_end {c : UInt8 → Bool} {n : Nat} {ch last : UInt8} {chars : List UInt8} {t t' : Token}
    (h : token_while c n ch t = (chars, last, t')) (he : t.eof = false) (he' : t'.eof = true)
    (hread : t.position ≠ 0 ∧ t.line[t.position - 1]? = some ch) :
    ∃ i x, t.line[i]? = some x ∧ c x = true ∧
      (t.line[i + 1]? = none ∨ t.line[i + 1]? = some (chr '\n')) := by
  induction n generalizing ch chars t with
  | zero =>
    cases h
    rw [he] at he'
    cases he'
  | succ n ih =>
    rw [token_while] at h
    split at h
    · next hch =>
      rcases hn : token_next_char t with ⟨next, t1⟩
      rcases hw : token_while c n next t1 with ⟨chars', last', t2⟩
      simp only [hn, hw] at h
      cases h
      rcases next_char_read hn he with ⟨-, hend⟩ | ⟨he1, hp1, hl1, hx⟩
      · have hsucc : t.position - 1 + 1 = t.position := Nat.succ_pred_eq_of_pos (Nat.pos_of_ne_zero hread.1)
        exact ⟨t.position - 1, ch, hread.2, hch, by rw [hsucc]; exact hend⟩
      · have hread1 : t1.position ≠ 0 ∧ t1.line[t1.position - 1]? = some next := by
          rw [hp1, hl1, Nat.add_sub_cancel]
          exact ⟨Nat.succ_ne_zero _, hx⟩
        rw [← hl1]
        exact ih hw he1 hread1
    · cases h
      rw [he] at he'
      cases he'

theorem nameAtEnd_of_separator {t : Token} (h : EndsInSeparator t.line) : NameAtEnd t = false := by
  by_contra hne
  have hname : NameAtEnd t = true := by simpa using hne
  rw [NameAtEnd] at hname
  have htrim := trim_space_moves t
  rcases hx : token_next_char (token_trim_space t) with ⟨ch, t1⟩
  simp only [hx, Bool.and_eq_true, Bool.not_eq_true'] at hname
  obtain ⟨⟨he, hd⟩, hw⟩ := hname
  rcases hw' : token_while (fun ch => !is_separator ch) t1.turns ch (t1.write [0]) with
    ⟨name, last, t2⟩
  rw [hw'] at hw
  rcases next_char_read hx ((next_char_moves hx).eof he) with ⟨he1, -⟩ | ⟨-, hp1, hl1, hc⟩
  · rw [he] at he1
    cases he1
  · have hread : (t1.write [0]).position ≠ 0 ∧
        (t1.write [0]).line[(t1.write [0]).position - 1]? = some ch := by
      show t1.position ≠ 0 ∧ t1.line[t1.position - 1]? = some ch
      rw [hp1, hl1, Nat.add_sub_cancel]
      exact ⟨Nat.succ_ne_zero _, hc⟩
    obtain ⟨i, x, hi, hsep, hend⟩ := while_at_end hw' he hw hread
    have hline : (t1.write [0]).line = t.line := hl1.trans htrim.line
    rw [hline] at hi hend
    rw [h i x hi hend] at hsep
    cases hsep

/-- A line that ends in a separator, such as the `;` of the shell, and whose tokens fit their
buffers. -/
theorem parser_returns_of_separator {line : List UInt8} (h : EndsInSeparator (cstr line))
    (hfit : ∀ t, Reads line t → (token_run t).isSome) : ParserReturns line := by
  have hline : ∀ t, Reads line t → t.line = cstr line := by
    intro t ht
    induction ht with
    | init e => rfl
    | run ht hrun ih => exact (token_run_moves (nameAtEnd_of_separator (ih ▸ h)) hrun).line.trans ih
    | replay b _ ih => exact ih
    | error e _ ih => exact ih
  exact parser_run_ends fun t ht => ⟨nameAtEnd_of_separator (hline t ht ▸ h), hfit t ht⟩

/-! ### A line that is a name -/

/-- The name `a` has just been read from a line of it: the end was met, and the position is at the
start again. -/
def Stuck (p : Parser) : Prop :=
  ∃ replay errno, p.token =
    { eof := false, replay := replay, position := 0, current_token := .identifier, char_value := 0,
      int_value := 0, string := chr 'a' :: List.replicate 127 0, line := [chr 'a'], errno := errno }

theorem Stuck.next_token {p : Parser} (h : Stuck p) :
    ∃ p', next_token p = some (.identifier, p') ∧ Stuck p' := by
  obtain ⟨replay, errno, h⟩ := h
  refine ⟨{ p with token := { p.token with replay := false } }, ?_, false, errno, by rw [h]⟩
  rw [Finsh.next_token, h]
  cases replay with
  | true => rfl
  | false => rfl

/-- Nothing that the parser does leaves the state. -/
theorem stuck_respected : Respected fun p p' => Stuck p → Stuck p' where
  refl _ := id
  trans h h' := h' ∘ h
  token ht h := by
    obtain ⟨p', hread, hp'⟩ := h.next_token
    rw [ht] at hread
    cases hread
    exact hp'
  replay _ := fun ⟨_, errno, h⟩ => ⟨true, errno, by rw [Parser.replay, h]; rfl⟩
  error {e} _ _ := fun ⟨replay, _, h⟩ => ⟨replay, e, by rw [Parser.setError, h]; rfl⟩
  node _ := id
  string _ := id
  vars _ _ := id

/-- Once there is a root the loop goes on. -/
theorem Stuck.parserLoop {symbols : Symbols} {n : Nat} {before : List Node} {after : Node} {p : Parser}
    (h : Stuck p) (hne : before ≠ []) :
    Finsh.parserLoop symbols n .identifier before after p = none := by
  induction n generalizing before after p with
  | zero => rfl
  | succ n ih =>
    have hnext {q : Parser} {before : List Node} (after : Node) (hq : Stuck q) (hne : before ≠ []) :
        ((Finsh.next_token q).bind fun x => Finsh.parserLoop symbols n x.1 before after x.2) = none := by
      obtain ⟨q', hread, hq'⟩ := hq.next_token
      rw [hread]
      exact ih hq' hne
    rw [Finsh.parserLoop, if_neg (by decide)]
    cases hs : proc_statement symbols n .identifier p with
    | none => rfl
    | some x =>
      obtain ⟨node, p1⟩ := x
      have hp1 := (proc_statement_keeps stuck_respected n .identifier _ _ _ hs).1 h
      cases node with
      | null =>
        show (if before = [] then _ else _) = none
        rw [if_neg hne]
        exact hnext .null hp1 hne
      | node t d a c s => exact hnext s hp1 (by simp)

/-- With a variable `a` and the line `a`, without a `;`, the parser does not return. -/
theorem finsh_parser_loops : ¬ ParserReturns [chr 'a'] := by
  intro h
  let symbols : Symbols :=
    { global_variable := 4096
      sysvar_table := []
      sysvar_list := []
      syscall_table := []
      syscall_list := []
      heap_allocate := fun _ _ => some 8192 }
  let vars : List Var := { name := [chr 'a'], type := .long } :: List.replicate 7 ⟨[], .unknown⟩
  obtain ⟨n, hn⟩ := h symbols vars fun _ _ => rfl
  have hfirst : ∃ p, next_token (.init vars [chr 'a']) = some (.identifier, p) ∧ Stuck p ∧
      (proc_statement symbols 30 .identifier p).map (·.1) = some (.leaf (.ID (.var 4096 .long))) :=
    ⟨_, rfl, ⟨false, 0, rfl⟩, by decide +kernel⟩
  obtain ⟨p, hread, hstuck, hnode⟩ := hfirst
  obtain ⟨⟨node30, p30⟩, h30, hleaf⟩ := Option.map_eq_some_iff.mp hnode
  rw [finsh_parser_run, hread] at hn
  cases n with
  | zero => cases hn
  | succ n =>
    obtain ⟨x, hx⟩ := Option.isSome_iff_exists.mp hn
    have hx : (proc_statement symbols n .identifier p).bind _ = some x := hx
    obtain ⟨⟨node, p1⟩, hs, hx⟩ := Option.bind_eq_some_iff.mp hx
    -- the bound does not decide what the first statement is
    have hsame := (proc_statement_extends symbols (Nat.le_max_left n 30) .identifier p _ hs).symm.trans
      (proc_statement_extends symbols (Nat.le_max_right n 30) .identifier p _ h30)
    obtain ⟨rfl, rfl⟩ := Prod.mk.inj (Option.some.inj hsame)
    have hp1 := (proc_statement_keeps stuck_respected n .identifier _ _ _ hs).1 hstuck
    obtain ⟨p2, hread2, hp2⟩ := hp1.next_token
    cases node with
    | null => cases hleaf
    | node t d a c s =>
      dsimp only at hx
      rw [hread2] at hx
      have hy : parserLoop symbols n .identifier ([] ++ [Node.node t d a c s]) s p2 = some x := hx
      rw [hp2.parserLoop (by simp)] at hy
      cases hy

end Ab32Vg1.Finsh
