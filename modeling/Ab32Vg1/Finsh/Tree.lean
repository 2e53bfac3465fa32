import Ab32Vg1.Finsh.Vm

/-! Syntax trees over integers with the types and the values that C gives them, the nodes that the
parser makes of them, and the code of these. -/

namespace Ab32Vg1.Finsh

open ProofKit

/-- `++` or `--`. -/
inductive StepOp
  | inc
  | dec
  deriving DecidableEq, Repr

def StepOp.op : StepOp → BinOp
  | inc => .add
  | dec => .sub

def StepOp.apply : StepOp → Int → Int
  | inc, v => v + 1
  | dec, v => v - 1

/-- Trees of literals, variables, and unary, binary, assignment and step operators; `+e` is made as
`e`. -/
inductive Tree
  | charValue (c : UInt8)
  | intValue (v : UInt32)
  | longValue (v : UInt32)
  | id (v : Ident)
  | bin (op : BinOp) (l r : Tree)
  | neg (e : Tree)
  | bitwise (e : Tree)
  | getValue (e : Tree)
  | getAddr (e : Tree)
  | assign (l r : Tree)
  | pre (op : StepOp) (e : Tree)
  | post (op : StepOp) (e : Tree)
  deriving DecidableEq, Repr

/-- The width of a variable of type `char`, `short`, `int` or `long`. -/
def Ident.intWidth : Ident → Option Width
  | .var _ .char | .sysvar _ .char _ => some .byte
  | .var _ .short | .sysvar _ .short _ => some .word
  | .var _ .int | .sysvar _ .int _ | .var _ .long | .sysvar _ .long _ => some .dword
  | _ => none

/-- The C type of a tree: an integer of a width, or a pointer to one. -/
inductive CType
  | int (w : Width)
  | ptr (w : Width)
  deriving DecidableEq, Repr

/-- The width of the values of a type. -/
def CType.width : CType → Width
  | int w => w
  | ptr _ => .dword

namespace Tree

/-- The width of a node by its first operand, as finsh propagates it. -/
def width : Tree → Width
  | charValue _ => .byte
  | intValue _ | longValue _ | neg _ => .dword
  | id v => v.intWidth.getD .dword
  | bin _ e _ | bitwise e | getValue e | getAddr e | assign e _ | pre _ e | post _ e => e.width

/-- Trees that denote an object. -/
def Lvalue : Tree → Bool
  | id _ | getValue _ => true
  | _ => false

/-- The type of a tree, none where C has none. -/
def ctype : Tree → Option CType
  | charValue _ => some (.int .byte)
  | intValue _ | longValue _ => some (.int .dword)
  | id v => v.intWidth.map .int
  | bin _ l r =>
    match l.ctype, r.ctype with
    | some (.int w), some (.int _) => some (.int w)
    | _, _ => none
  | neg e =>
    match e.ctype with
    | some (.int _) => some (.int .dword)
    | _ => none
  | bitwise e =>
    match e.ctype with
    | some (.int w) => some (.int w)
    | _ => none
  | getValue e =>
    match e.ctype with
    | some (.ptr w) => some (.int w)
    | _ => none
  | getAddr e =>
    match e.Lvalue, e.ctype with
    | true, some (.int w) => some (.ptr w)
    | _, _ => none
  | assign l r =>
    match l.Lvalue, l.ctype, r.ctype with
    | true, some (.int w), some _ => some (.int w)
    | _, _, _ => none
  | pre _ e | post _ e =>
    match e.Lvalue, e.ctype with
    | true, some (.int w) => some (.int w)
    | _, _ => none

/-! ### Evaluation -/

mutual

/-- The value of a tree at its type and the memory after it: operators of C on the values of the
operands, which are evaluated from left to right, and conversion to the type of the node. -/
def eval : Tree → Bytes → Option (Int × Bytes)
  | charValue c, m => some (c.toNat, m)
  | intValue v, m | longValue v, m => some (Width.dword.conv v.toNat, m)
  | id v, m => some ((id v).width.load m v.addr, m)
  | bin op l r, m => do
    let (x, m) ← l.eval m
    let (y, m) ← r.eval m
    let z ← op.eval x y
    return (l.width.conv z, m)
  | neg e, m => do
    let (x, m) ← e.eval m
    return (Width.dword.conv (-x), m)
  | bitwise e, m => do
    let (x, m) ← e.eval m
    return (e.width.conv (-x - 1), m)
  | getValue e, m => do
    let (x, m) ← e.eval m
    return (e.width.load m (address x), m)
  | getAddr e, m => do
    let (a, m) ← e.object m
    return (Width.dword.conv a, m)
  | assign l r, m => do
    let (a, m) ← l.object m
    let (y, m) ← r.eval m
    return (l.width.conv y, l.width.store m a (l.width.conv y))
  | pre op e, m => do
    let (a, m) ← e.object m
    let v := e.width.conv (op.apply (e.width.load m a))
    return (v, e.width.store m a v)
  | post op e, m => do
    let (a, m) ← e.object m
    return (e.width.load m a, e.width.store m a (e.width.conv (op.apply (e.width.load m a))))

/-- The address of the object that a tree denotes. -/
@[grind] def object : Tree → Bytes → Option (Nat × Bytes)
  | id v, m => some (v.addr, m)
  | getValue e, m => do
    let (x, m) ← e.eval m
    return (address x, m)
  | _, _ => none

end

/-! ### Nodes -/

/-- The identifier of a step, where the compiler finds one. -/
def ident : Tree → Option Ident
  | id v => some v
  | _ => none

mutual

/-- The code of a tree whose value is wanted. -/
@[grind] def code : Tree → List UInt8
  | charValue c => [(Op.ld .byte).code, c]
  | intValue v | longValue v => (Op.ld .dword).code :: finsh_code_dword v.toNat
  | id v => codeIdent v false
  | bin op l r => l.code ++ r.code ++ [(Op.bin op l.width).code]
  | neg e =>
    ((Op.ld .dword).code :: finsh_code_dword 0) ++ e.code ++ [(Op.bin .sub .dword).code]
  | bitwise e => e.code ++ [(Op.bitwise e.width).code]
  | getValue e => e.code ++ [(Op.ldValueStack e.width).code]
  | getAddr e => e.addressCode
  | assign l r =>
    l.addressCode ++ r.code ++ [(Op.st l.width).code, (Op.ldValueStack l.width).code]
  | pre op e =>
    e.addressCode ++ match e.ident with
      | some v => codePre op.op v e.width
      | none => []
  | post op e =>
    e.code ++ match e.ident with
      | some v => codePost op.op v e.width
      | none => []

/-- The code of a tree whose address is wanted. -/
def addressCode : Tree → List UInt8
  | id v => codeIdent v true
  | getValue e => e.code
  | _ => []

end

/-! ### Typed trees -/

end Tree

end Ab32Vg1.Finsh
