import Ab32Vg1.Finsh.Node

/-! `finsh_compiler.c` with the byte codes of `finsh_ops.h`: the type check marks the nodes whose
address is wanted and gives each node the data type of its first child, and the code of a node comes
after the code of its children. -/

namespace Ab32Vg1.Finsh

open ProofKit

/-! ### Byte codes -/

/-- The byte codes; each arithmetic one comes in three widths. -/
inductive Op
  | noop
  | bin (op : BinOp) (w : Width)
  | bitwise (w : Width)
  | ld (w : Width)
  | ldValue (w : Width)
  | st (w : Width)
  | pop
  | syscall
  | ldValueStack (w : Width)
  deriving DecidableEq, Repr

/-- `FINSH_OP_ADD_BYTE` and its like. -/
def binBase : BinOp → Nat
  | .add => 0x01
  | .sub => 0x04
  | .div => 0x07
  | .mod => 0x0A
  | .mul => 0x0D
  | .and => 0x10
  | .or => 0x13
  | .xor => 0x16
  | .shl => 0x1C
  | .shr => 0x1F

/-- The offset of a width in a group of three codes. -/
def widthOffset : Width → Nat
  | .byte => 0
  | .word => 1
  | .dword => 2

def Op.code : Op → UInt8
  | noop => 0x00
  | bin op w => UInt8.ofNat (binBase op + widthOffset w)
  | bitwise w => UInt8.ofNat (0x19 + widthOffset w)
  | ld w => UInt8.ofNat (0x22 + widthOffset w)
  | ldValue w => UInt8.ofNat (0x25 + widthOffset w)
  | st w => UInt8.ofNat (0x28 + widthOffset w)
  | pop => 0x2B
  | syscall => 0x2C
  | ldValueStack w => UInt8.ofNat (0x2D + widthOffset w)

/-- `FINSH_SET32`. -/
def finsh_code_dword (x : Nat) : List UInt8 :=
  [UInt8.ofNat x, UInt8.ofNat (x / 256), UInt8.ofNat (x / 65536), UInt8.ofNat (x / 16777216)]

/-- `FINSH_SET16`. -/
def finsh_code_word (x : Nat) : List UInt8 := [UInt8.ofNat x, UInt8.ofNat (x / 256)]

/-- The constant 1 of a width. -/
def codeOne : Width → List UInt8
  | .byte => [1]
  | .word => finsh_code_word 1
  | .dword => finsh_code_dword 1

/-- The cases of a switch on a data type. -/
def width (data_type : Nat) : Option Width :=
  if data_type = FINSH_DATA_TYPE_BYTE then some .byte
  else if data_type = FINSH_DATA_TYPE_WORD then some .word
  else if data_type = FINSH_DATA_TYPE_DWORD then some .dword
  else none

/-- The cases of the switch on the type of a variable that is loaded; `void` and `void *` have
none. -/
def FinshType.width : FinshType → Option Width
  | char | uchar => some .byte
  | short | ushort => some .word
  | int | uint | long | ulong | charp | shortp | intp | longp => some .dword
  | void | voidp | unknown => none

/-! ### The type check -/

/-- The data type that the type of a variable gives, if the switch has a case for it. -/
def FinshType.data_type : FinshType → Option Nat
  | void => some FINSH_DATA_TYPE_VOID
  | char | uchar => some FINSH_DATA_TYPE_BYTE
  | short | ushort => some FINSH_DATA_TYPE_WORD
  | int | uint | long | ulong | charp | voidp | shortp | intp | longp => some FINSH_DATA_TYPE_DWORD
  | unknown => none

/-- The data type of a node without a child; `data_type` is the one it has. -/
def leafType (t : NodeType) (data_type : Nat) : Nat :=
  match t with
  | .ID (.syscall ..) => data_type
  | .ID id => id.type.data_type.getD data_type
  | .VALUE_CHAR _ => FINSH_DATA_TYPE_BYTE
  | .VALUE_INT _ | .VALUE_LONG _ | .VALUE_STRING _ | .VALUE_NULL _ => FINSH_DATA_TYPE_DWORD
  | _ => data_type

/-- The attribute that the first child is checked with. -/
def childAddress (t : NodeType) (is_addr : Bool) : Bool :=
  match t with
  | .SYS_ASSIGN | .SYS_PREINC | .SYS_PREDEC | .SYS_GETADDR => true
  | .SYS_GETVALUE => false
  | _ => is_addr

/-- Whether the attribute is set: `idtype` is not exactly `FINSH_IDTYPE_SYSCALL`. -/
def setAddress (t : NodeType) (address is_addr : Bool) : Bool :=
  match t with
  | .ID (.syscall ..) => address
  | _ => address || is_addr

@[grind] def finsh_type_check : Node → Bool → Node
  | .null, _ => .null
  | .node t d a c s, is_addr =>
    let c' := finsh_type_check c (childAddress t is_addr)
    .node t (if c = .null then leafType t d else c'.data_type) (setAddress t a is_addr) c'
      (finsh_type_check s false)

/-! ### Code -/

/-- The code of an identifier: its address, or the value there. -/
def codeIdent (id : Ident) (address : Bool) : List UInt8 :=
  match id with
  | .syscall _ func => (Op.ld .dword).code :: finsh_code_dword func.toNat
  | _ =>
    match id.type.width with
    | none => []
    | some w =>
      (if address then (Op.ld .dword).code else (Op.ldValue w).code) :: finsh_code_dword id.addr

/-- `++id` and `--id`; the address of `id` is on the stack. -/
def codePre (op : BinOp) (id : Ident) (w : Width) : List UInt8 :=
  (Op.ldValue w).code :: finsh_code_dword id.varValue ++ (Op.ld w).code :: codeOne w ++
    [(Op.bin op w).code, (Op.st w).code, (Op.ldValueStack .dword).code]

/-- `id++` and `id--`; the value of `id` is on the stack. -/
def codePost (op : BinOp) (id : Ident) (w : Width) : List UInt8 :=
  (Op.ld .dword).code :: finsh_code_dword id.varValue ++
    (Op.ldValue w).code :: finsh_code_dword id.varValue ++ (Op.ld w).code :: codeOne w ++
    [(Op.bin op w).code, (Op.st w).code, Op.pop.code]

/-- The code of a switch on a data type that emits nothing by default. -/
def codeWidth (data_type : Nat) (code : Width → List UInt8) : List UInt8 :=
  match width data_type with
  | some w => code w
  | none => []

/-- The code of a step by one whose operand is the first child. -/
def codeStep (child : Node) (data_type : Nat) (code : Ident → Width → List UInt8) : List UInt8 :=
  match child with
  | .node (.ID id) .. => codeWidth data_type (code id)
  | _ => []

/-- The code that a node adds after its children. -/
def emit (t : NodeType) (data_type : Nat) (address : Bool) (child : Node) : List UInt8 :=
  match t with
  | .ID id => codeIdent id address
  | .VALUE_CHAR c => [(Op.ld .byte).code, c]
  | .VALUE_INT v | .VALUE_LONG v | .VALUE_NULL v | .VALUE_STRING v =>
    (Op.ld .dword).code :: finsh_code_dword v.toNat
  | .SYS_BIN op => codeWidth data_type fun w => [(Op.bin op w).code]
  | .SYS_BITWISE => codeWidth data_type fun w => [(Op.bitwise w).code]
  | .SYS_FUNC =>
    match child with
    | .null => []
    | _ => [Op.syscall.code, UInt8.ofNat child.sibling.siblings]
  | .SYS_ASSIGN =>
    match child with
    | .node (.ID _) d .. => codeWidth d fun w => [(Op.st w).code, (Op.ldValueStack w).code]
    | .node .SYS_GETVALUE d .. =>
      codeWidth (d % 16) fun w => [(Op.st w).code, (Op.ldValueStack w).code]
    | _ => []
  | .SYS_PREINC => codeStep child data_type (codePre .add)
  | .SYS_PREDEC => codeStep child data_type (codePre .sub)
  | .SYS_INC => codeStep child data_type (codePost .add)
  | .SYS_DEC => codeStep child data_type (codePost .sub)
  | .SYS_NULL => finsh_code_dword 0
  | .SYS_GETVALUE =>
    if address then [] else codeWidth data_type fun w => [(Op.ldValueStack w).code]
  | .SYS_GETADDR | .SYS_CAST => []

@[grind] def finsh_compile : Node → List UInt8
  | .null => []
  | .node t d a c s => finsh_compile c ++ emit t d a c ++ finsh_compile s

/-- The statements of `finsh_compiler_run`, each compiled without its sibling and its value popped
when another follows. -/
@[grind] def compileStatements : Node → List UInt8
  | .null => []
  | .node t d a c s =>
    finsh_compile (.node t d a c .null) ++ if s = .null then [] else Op.pop.code :: compileStatements s

/-- `finsh_compiler_run`: the code that it writes to the text segment. -/
def finsh_compiler_run (node : Node) : List UInt8 :=
  compileStatements (finsh_type_check node false)

end Ab32Vg1.Finsh
