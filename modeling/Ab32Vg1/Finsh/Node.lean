import Ab32Vg1.ProofKit.CInt

/-! The nodes of the syntax tree of finsh, each with its first child and its next sibling. -/

namespace Ab32Vg1.Finsh

open ProofKit

/-- `enum finsh_type`. -/
inductive FinshType
  | unknown
  | void
  | voidp
  | char
  | uchar
  | charp
  | short
  | ushort
  | shortp
  | int
  | uint
  | intp
  | long
  | ulong
  | longp
  deriving DecidableEq, Repr

def FINSH_DATA_TYPE_VOID : Nat := 0

def FINSH_DATA_TYPE_BYTE : Nat := 1

def FINSH_DATA_TYPE_WORD : Nat := 2

def FINSH_DATA_TYPE_DWORD : Nat := 3

/-- The record that an identifier node points to, at `addr`: `struct finsh_var`,
`struct finsh_sysvar` or `struct finsh_syscall`. -/
inductive Ident
  | var (addr : UInt32) (type : FinshType)
  | sysvar (addr : UInt32) (type : FinshType) (var : UInt32)
  | syscall (addr : UInt32) (func : UInt32)
  deriving DecidableEq, Repr

namespace Ident

/-- The address of `id.var->value`, 20 bytes into the record, whatever the record is. -/
def varValue : Ident → Nat
  | var addr _ | sysvar addr _ _ | syscall addr _ => (addr + 20).toNat

/-- The address that the code of the identifier loads, or loads from. -/
def addr : Ident → Nat
  | var addr _ => (addr + 20).toNat
  | sysvar _ _ v => v.toNat
  | syscall _ func => func.toNat

def type : Ident → FinshType
  | var _ type | sysvar _ type _ => type
  | syscall .. => .unknown

end Ident

/-- `node_type` with the union members that it selects. -/
inductive NodeType
  | ID (id : Ident)
  | VALUE_CHAR (char_value : UInt8)
  | VALUE_INT (int_value : UInt32)
  | VALUE_LONG (long_value : UInt32)
  | VALUE_STRING (ptr : UInt32)
  | VALUE_NULL (ptr : UInt32)
  | SYS_BIN (op : BinOp)
  | SYS_BITWISE
  | SYS_FUNC
  | SYS_ASSIGN
  | SYS_CAST
  | SYS_PREINC
  | SYS_PREDEC
  | SYS_INC
  | SYS_DEC
  | SYS_GETVALUE
  | SYS_GETADDR
  | SYS_NULL
  deriving DecidableEq, Repr

/-- `struct finsh_node`, or `NULL`; `address` is the bit `FINSH_IDTYPE_ADDRESS` of `idtype`. -/
inductive Node
  | null
  | node (node_type : NodeType) (data_type : Nat) (address : Bool) (child sibling : Node)
  deriving DecidableEq, Repr

namespace Node

/-- A node as `finsh_node_allocate` leaves it. -/
def leaf (t : NodeType) : Node := node t 0 false null null

def data_type : Node → Nat
  | null => 0
  | node _ d _ _ _ => d

def sibling : Node → Node
  | null => null
  | node _ _ _ _ s => s

def setSibling : Node → Node → Node
  | null, _ => null
  | node t d a c _, s => node t d a c s

/-- The nodes of a tree and of its siblings. -/
@[grind] def size : Node → Nat
  | null => 0
  | node _ _ _ c s => c.size + s.size + 1

/-- The nodes in a list of siblings. -/
def siblings : Node → Nat
  | null => 0
  | node _ _ _ _ s => s.siblings + 1

end Node

end Ab32Vg1.Finsh
