import Ab32Vg1.Finsh.Node
import Ab32Vg1.Finsh.Token

/-! `finsh_parser.c`, with the node pool of `finsh_node.c` and the variables of `finsh_var.c`. Nodes
are trees, and of the pool the number of nodes taken counts. Functions that call each other have a
bound on the depth of their calls and on the turns of their loops. -/

namespace Ab32Vg1.Finsh

open ProofKit

def FINSH_NAME_MAX : Nat := 16

def FINSH_NODE_MAX : Nat := 16

def FINSH_VARIABLE_MAX : Nat := 8

/-- `struct finsh_var`; the value is in memory. -/
structure Var where
  name : List UInt8
  type : FinshType
  deriving DecidableEq, Repr

/-- What the parser reads of the rest of the system: the address of `global_variable`, the symbol
tables and the lists of symbols appended at run time, and the block that each call of
`finsh_heap_allocate` gives for a size. -/
structure Symbols where
  global_variable : UInt32
  sysvar_table : List (List UInt8 × Ident)
  sysvar_list : List (List UInt8 × Ident)
  syscall_table : List (List UInt8 × Ident)
  syscall_list : List (List UInt8 × Ident)
  heap_allocate : Nat → Nat → Option UInt32

/-- `struct finsh_parser` without the root, the variables, the nodes taken from the pool and the
strings allocated. -/
structure Parser where
  token : Token
  vars : List Var
  nodes : Nat
  strings : Nat
  deriving DecidableEq, Repr

/-! ### Variables and symbols -/

/-- `finsh_var_insert`, none where it fails. -/
def finsh_var_insert (name : List UInt8) (type : FinshType) (vars : List Var) :
    Option (List Var) :=
  if vars.any (·.name = name) then none
  else
    (vars.findIdx? (·.type = .unknown)).map fun i =>
      vars.set i { name := name, type := type }

/-- `finsh_var_lookup`: vars are 24 bytes apart. -/
def finsh_var_lookup (symbols : Symbols) (vars : List Var) (name : List UInt8) : Option Ident :=
  (vars.findIdx? (·.name = name)).map fun i =>
    .var (symbols.global_variable + UInt32.ofNat (24 * i)) ((vars.map (·.type)).getD i .unknown)

/-- The entry of a table, or the first of a list whose name begins with the name. -/
def findSymbol (table list : List (List UInt8 × Ident)) (name : List UInt8) : Option Ident :=
  match table.find? (·.1 = name) with
  | some (_, id) => some id
  | none => (list.find? fun (s, _) => name.isPrefixOf s).map (·.2)

def finsh_sysvar_lookup (symbols : Symbols) (name : List UInt8) : Option Ident :=
  findSymbol symbols.sysvar_table symbols.sysvar_list name

def finsh_syscall_lookup (symbols : Symbols) (name : List UInt8) : Option Ident :=
  findSymbol symbols.syscall_table symbols.syscall_list name

/-- The symbol of an identifier node. -/
def lookup (symbols : Symbols) (vars : List Var) (name : List UInt8) : Option Ident :=
  match finsh_var_lookup symbols vars name with
  | some id => some id
  | none =>
    match finsh_sysvar_lookup symbols name with
    | some id => some id
    | none => finsh_syscall_lookup symbols name

/-! ### Tokens and nodes -/

namespace Parser

def setError (self : Parser) (errno : Nat) : Parser :=
  { self with token := self.token.setError errno }

def replay (self : Parser) : Parser := { self with token := finsh_token_replay self.token }

end Parser

def next_token (self : Parser) : Option (TokenType × Parser) :=
  (finsh_token_token self.token).map fun (token, t) => (token, { self with token := t })

def check_token (token type : TokenType) (self : Parser) : Parser :=
  if token ≠ type then (self.setError FINSH_ERROR_INVALID_TOKEN).replay else self

def match_token (type : TokenType) (self : Parser) : Option Parser :=
  (next_token self).map fun (token, self) => check_token token type self

def finsh_node_allocate (type : NodeType) (self : Parser) : Node × Parser :=
  if self.nodes < FINSH_NODE_MAX then (.leaf type, { self with nodes := self.nodes + 1 })
  else (.null, self)

/-- `finsh_node_new_char` and its like. -/
def finsh_node_new_value (type : NodeType) (self : Parser) : Node × Parser :=
  match finsh_node_allocate type self with
  | (.null, self) => (.null, self.setError FINSH_ERROR_MEMORY_FULL)
  | result => result

def finsh_node_new_id (symbols : Symbols) (id : List UInt8) (self : Parser) : Node × Parser :=
  match lookup symbols self.vars id with
  | some symbol => finsh_node_new_value (.ID symbol) self
  | none => (.null, self.setError FINSH_ERROR_UNKNOWN_SYMBOL)

/-- No value where the heap has no block: the string is copied to `NULL`. A string that fills its
buffer ends with it here. -/
def finsh_node_new_string (symbols : Symbols) (self : Parser) : Option (Node × Parser) :=
  if FINSH_NODE_MAX ≤ self.nodes then some (.null, self.setError FINSH_ERROR_MEMORY_FULL)
  else
    (symbols.heap_allocate self.strings ((cstr self.token.string).length + 1)).map fun ptr =>
      (.leaf (.VALUE_STRING ptr), { self with nodes := self.nodes + 1, strings := self.strings + 1 })

def make_sys_node (type : NodeType) (node1 node2 : Node) (self : Parser) : Node × Parser :=
  match node1, finsh_node_allocate type self with
  | .node t d a c _, (.node t' d' a' _ s', self) =>
    (.node t' d' a' (.node t d a c node2) s', self)
  | _, (node, self) => (node, self.setError FINSH_ERROR_NULL_NODE)

/-! ### Types -/

/-- The basic type of a token, and what `unsigned` makes of it: nothing of `void`. -/
def baseType : TokenType → Option (FinshType × Option FinshType)
  | .void => some (.void, none)
  | .char => some (.char, some .uchar)
  | .short => some (.short, some .ushort)
  | .int => some (.int, some .uint)
  | .long => some (.long, some .ulong)
  | _ => none

def is_base_type (token : TokenType) : Bool := (baseType token).isSome

/-- The type of a pointer. -/
def pointerType : FinshType → FinshType
  | .char | .uchar => .charp
  | .short | .ushort => .shortp
  | .int | .uint => .intp
  | .long | .ulong => .longp
  | _ => .voidp

/-- The end of `proc_type`. -/
def proc_pointer (type : FinshType) (self : Parser) : Option (FinshType × Parser) := do
  let (token, self) ← next_token self
  if token = .mul then return (pointerType type, self)
  else return (type, self.replay)

def proc_type (self : Parser) : Option (FinshType × Parser) := do
  let (token, self) ← next_token self
  match baseType token with
  | some (type, _) => proc_pointer type self
  | none =>
    if token = .unsigned then
      let (token, self) ← next_token self
      match baseType token with
      | some (_, some type) => proc_pointer type self
      | some (_, none) => return (.unknown, self.replay.setError FINSH_ERROR_UNKNOWN_TYPE)
      | none => proc_pointer .unknown (self.replay.setError FINSH_ERROR_EXPECT_TYPE)
    else return (.unknown, self.replay.setError FINSH_ERROR_UNKNOWN_TYPE)

def proc_identifier (self : Parser) : Option (List UInt8 × Parser) := do
  let self ← match_token .identifier self
  return ((cstr self.token.string).take FINSH_NAME_MAX, self)

/-! ### Expressions -/

/-- A function that parses an expression. -/
abbrev Proc := Parser → Option (Node × Parser)

/-- The loop of the levels of binary operators. -/
def binaryLoop (operand : Proc) (op : TokenType → Option BinOp) : Nat → Node → Proc
  | 0, _, _ => none
  | n + 1, left, self => do
    let (token, self) ← next_token self
    match op token with
    | none => return (left, self.replay)
    | some op' =>
      match ← operand self with
      | (.null, self) => binaryLoop operand op n left (self.setError FINSH_ERROR_EXPECT_OPERATOR)
      | (right, self) =>
        let (left, self) := make_sys_node (.SYS_BIN op') left right self
        binaryLoop operand op n left self

/-- A level of left-associative operators. -/
def proc_binary_expr (operand : Proc) (op : TokenType → Option BinOp) (n : Nat) : Proc := fun self => do
  let (left, self) ← operand self
  binaryLoop operand op n left self

def proc_multiplicative_expr (cast : Proc) (n : Nat) : Proc :=
  proc_binary_expr cast
    (fun | .mul => some .mul | .div => some .div | .mod => some .mod | _ => none) n

def proc_additive_expr (cast : Proc) (n : Nat) : Proc :=
  proc_binary_expr (proc_multiplicative_expr cast n)
    (fun | .sub => some .sub | .add => some .add | _ => none) n

def proc_shift_expr (cast : Proc) (n : Nat) : Proc :=
  proc_binary_expr (proc_additive_expr cast n)
    (fun | .shl => some .shl | .shr => some .shr | _ => none) n

def proc_and_expr (cast : Proc) (n : Nat) : Proc :=
  proc_binary_expr (proc_shift_expr cast n) (fun | .and => some .and | _ => none) n

def proc_exclusive_or_expr (cast : Proc) (n : Nat) : Proc :=
  proc_binary_expr (proc_and_expr cast n) (fun | .xor => some .xor | _ => none) n

def proc_inclusive_or_expr (cast : Proc) (n : Nat) : Proc :=
  proc_binary_expr (proc_exclusive_or_expr cast n) (fun | .or => some .or | _ => none) n

/-- The loop of `proc_param_list`, with the parameters before. -/
def paramLoop (assign : Proc) : Nat → List Node → Parser → Option (List Node × Parser)
  | 0, _, _ => none
  | n + 1, params, self => do
    let (token, self) ← next_token self
    if token = .comma then
      match ← assign self with
      | (.null, self) => paramLoop assign n params (self.setError FINSH_ERROR_EXPECT_OPERATOR)
      | (param, self) => paramLoop assign n (params ++ [param]) self
    else return (params, self.replay)

/-- Nodes linked by their siblings, before `rest`. -/
def Node.link (nodes : List Node) (rest : Node) : Node := nodes.foldr Node.setSibling rest

def proc_param_list (assign : Proc) (n : Nat) : Proc := fun self => do
  match ← assign self with
  | (.null, self) => return (.null, self)
  | (param, self) =>
    let (params, self) ← paramLoop assign n [param] self
    return (.link params .null, self)

def proc_primary_expr (symbols : Symbols) (expr : Proc) : Proc := fun self => do
  let (token, self) ← next_token self
  match token with
  | .identifier =>
    let (id, self) ← proc_identifier self.replay
    return finsh_node_new_id symbols id self
  | .left_paren =>
    let (node, self) ← expr self
    let self ← match_token .right_paren self
    return (node, self)
  | .value_int => return finsh_node_new_value (.VALUE_INT self.token.int_value) self
  | .value_long => return finsh_node_new_value (.VALUE_LONG self.token.int_value) self
  | .value_char => return finsh_node_new_value (.VALUE_CHAR self.token.char_value) self
  | .value_string => finsh_node_new_string symbols self
  | .value_null => return finsh_node_new_value (.VALUE_NULL 0) self
  | _ => return (.null, self.setError FINSH_ERROR_INVALID_TOKEN)

/-- The parameters of a call, behind its `(`. -/
def proc_call (assign : Proc) (n : Nat) : Proc := fun self => do
  let (token, self) ← next_token self
  if token ≠ .right_paren then
    let (params, self) ← proc_param_list assign n self.replay
    let self ← match_token .right_paren self
    return (params, self)
  else return (.null, self)

/-- The loop of `proc_postfix_expr`. -/
def postfixLoop (assign : Proc) (m : Nat) : Nat → Node → Proc
  | 0, _, _ => none
  | n + 1, postfix', self => do
    let (token, self) ← next_token self
    match token with
    | .inc =>
      let (node, self) := make_sys_node .SYS_INC postfix' .null self
      postfixLoop assign m n node self
    | .dec =>
      let (node, self) := make_sys_node .SYS_DEC postfix' .null self
      postfixLoop assign m n node self
    | .left_paren =>
      let (params, self) ← proc_call assign m self
      let (node, self) := make_sys_node .SYS_FUNC postfix' params self
      postfixLoop assign m n node self
    | _ => return (postfix', self.replay)

def proc_postfix_expr (symbols : Symbols) (assign : Proc) (n : Nat) : Proc := fun self => do
  let (postfix', self) ← proc_primary_expr symbols assign self
  postfixLoop assign n n postfix' self

/-- The node that a unary operator makes of its operand. -/
def unaryNode : TokenType → Option NodeType
  | .inc => some .SYS_PREINC
  | .dec => some .SYS_PREDEC
  | .bitwise => some .SYS_BITWISE
  | .mul => some .SYS_GETVALUE
  | .and => some .SYS_GETADDR
  | _ => none

def proc_unary_expr (symbols : Symbols) (assign cast : Proc) (n : Nat) : Proc := fun self => do
  let (token, self) ← next_token self
  if token = .add then cast self
  else if token = .sub then
    let (operand, self) ← cast self
    let (zero, self) := finsh_node_new_value (.VALUE_LONG 0) self
    return make_sys_node (.SYS_BIN .sub) zero operand self
  else
    match unaryNode token with
    | some type =>
      let (operand, self) ← cast self
      return make_sys_node type operand .null self
    | none => proc_postfix_expr symbols assign n self.replay

/-- The data type that a cast sets. -/
def Node.setDataType : Node → Nat → Node
  | null, _ => null
  | node t _ a c s, d => node t d a c s

/-- The number of a type in `enum finsh_type`. -/
def FinshType.toNat : FinshType → Nat
  | unknown => 0
  | void => 1
  | voidp => 2
  | char => 3
  | uchar => 4
  | charp => 5
  | short => 6
  | ushort => 7
  | shortp => 8
  | int => 9
  | uint => 10
  | intp => 11
  | long => 12
  | ulong => 13
  | longp => 14

mutual

def proc_cast_expr (symbols : Symbols) : Nat → Proc
  | 0, _ => none
  | n + 1, self => do
    let (token, self) ← next_token self
    if token = .left_paren then
      let (type, self) ← proc_type self
      let self ← match_token .right_paren self
      match ← proc_cast_expr symbols n self with
      | (.null, self) =>
        proc_unary_expr symbols (proc_assign_expr symbols n) (proc_cast_expr symbols n) n self.replay
      | (cast, self) => return (cast.setDataType type.toNat, self)
    else proc_unary_expr symbols (proc_assign_expr symbols n) (proc_cast_expr symbols n) n self.replay

def proc_assign_expr (symbols : Symbols) : Nat → Proc
  | 0, _ => none
  | n + 1, self => do
    let (or, self) ← proc_inclusive_or_expr (proc_cast_expr symbols n) n self
    let (token, self) ← next_token self
    if token = .assign then
      let (assign, self) ← proc_assign_expr symbols n self
      return make_sys_node .SYS_ASSIGN or assign self
    else return (or, self.replay)

end

def proc_expr (symbols : Symbols) (n : Nat) : Proc := proc_assign_expr symbols n

/-! ### Statements -/

/-- A variable is declared. -/
def declare (id : List UInt8) (type : FinshType) (self : Parser) : Parser :=
  match finsh_var_insert id type self.vars with
  | some vars => { self with vars := vars }
  | none => self.setError FINSH_ERROR_VARIABLE_EXIST

/-- The right side of a declarator whose name has been read: the assignment is linked behind the ones
before it, and the next token read. Where there is none, the token stays. -/
def declInit (symbols : Symbols) (assign : Proc) (id : List UInt8) (nodes : List Node)
    (token : TokenType) (self : Parser) : Option (List Node × TokenType × Parser) :=
  if token = .assign then do
    match ← assign self with
    | (.null, self) => return (nodes, token, self)
    | (assign, self) =>
      let (idnode, self) := finsh_node_new_id symbols id self
      let (node, self) := make_sys_node .SYS_ASSIGN idnode assign self
      let (token, self) ← next_token self
      return (if node = .null then nodes else nodes ++ [node], token, self)
  else some (nodes, token, self)

/-- The declarators behind commas, and the semicolon. -/
def declLoop (symbols : Symbols) (assign : Proc) (type : FinshType) :
    Nat → List Node → TokenType → Parser → Option (List Node × Parser)
  | 0, _, _, _ => none
  | n + 1, nodes, token, self =>
    if token = .comma then do
      let (id, self) ← proc_identifier self
      let (token, self) ← next_token (declare id type self)
      let (nodes, token, self) ← declInit symbols assign id nodes token self
      declLoop symbols assign type n nodes token self
    else some (nodes, check_token token .semicolon self)

def proc_variable_decl (symbols : Symbols) (n : Nat) : Proc := fun self => do
  let (type, self) ← proc_type self
  let (id, self) ← proc_identifier self
  let (token, self) ← next_token (declare id type self)
  if token = .comma ∨ token = .assign then
    let (nodes, token, self) ← declInit symbols (proc_assign_expr symbols n) id [] token self
    let (nodes, self) ← declLoop symbols (proc_assign_expr symbols n) type n nodes token self
    return (.link nodes .null, self)
  else if token = .semicolon then return (.null, self)
  else return (.null, self.setError FINSH_ERROR_EXPECT_TYPE)

def proc_expr_statement (symbols : Symbols) (n : Nat) : Proc := fun self => do
  let (token, self) ← next_token self
  if token ≠ .semicolon then
    let (expr, self) ← proc_expr symbols n self.replay
    let self ← match_token .semicolon self
    return (expr, self)
  else return (.null, self)

/-- Whether a token starts a declaration. -/
def startsDecl (token : TokenType) : Bool := is_base_type token || token == .unsigned

/-- The statement that starts with a token, which is read again. -/
def proc_statement (symbols : Symbols) (n : Nat) (token : TokenType) : Proc := fun self =>
  if startsDecl token then proc_variable_decl symbols n self.replay
  else proc_expr_statement symbols n self.replay

/-- A token is skipped after an expression statement without a node, unless it started with an
identifier. -/
def skipToken (token : TokenType) (self : Parser) : Option Parser :=
  if startsDecl token ∨ token = .identifier then some self else (next_token self).map (·.2)

/-- The loop of `finsh_parser_run`: `before` are the nodes from the root to the last statement, which
a next one is linked to in place of the nodes `after`. -/
def parserLoop (symbols : Symbols) :
    Nat → TokenType → List Node → Node → Parser → Option (Node × Parser)
  | 0, _, _, _, _ => none
  | n + 1, token, before, after, self =>
    if token = .eof ∨ token = .bad then some (.link before after, self)
    else do
      match ← proc_statement symbols n token self with
      | (.null, self) =>
        if before = [] then return (.null, self)
        else
          let self ← skipToken token self
          let (token, self) ← next_token self
          parserLoop symbols n token before .null self
      | (node, self) =>
        let (token, self) ← next_token self
        parserLoop symbols n token (before ++ [node]) node.sibling self

/-- A parser as `finsh_flush` and `finsh_token_init` leave it. -/
def Parser.init (vars : List Var) (line : List UInt8) : Parser :=
  { token := finsh_token_init line FINSH_ERROR_OK, vars := vars, nodes := 0, strings := 0 }

/-- `finsh_parser_run`: the root and the parser at its return. -/
def finsh_parser_run (symbols : Symbols) (n : Nat) (vars : List Var) (line : List UInt8) :
    Option (Node × Parser) := do
  let (token, self) ← next_token (.init vars line)
  parserLoop symbols n token [] .null self

end Ab32Vg1.Finsh
