import Ab32Vg1.ProofKit.ByteMemory

/-! The integers of C in 1, 2 and 4 bytes, `char` unsigned: conversion, the cells of a union of them,
and their values in memory. -/

namespace Ab32Vg1.ProofKit

inductive Width
  | byte
  | word
  | dword
  deriving DecidableEq, Repr

namespace Width

def size : Width → Nat
  | byte => 1
  | word => 2
  | dword => 4

/-- How many values the width has. -/
def card (w : Width) : Nat := 256 ^ w.size

/-- The value of `v` after conversion to the width. -/
def conv : Width → Int → Int
  | byte, v => v % 256
  | word, v => v.bmod 65536
  | dword, v => v.bmod 4294967296

instance : LE Width := ⟨fun w w' => w.size ≤ w'.size⟩

instance (w w' : Width) : Decidable (w ≤ w') := inferInstanceAs (Decidable (w.size ≤ w'.size))

theorem le_refl (w : Width) : w ≤ w := Nat.le_refl _

variable {w w' : Width}

/-- A cell of 4 bytes after a member of a width is set to `v`: the other bytes stay. -/
def write (w : Width) (cell : Nat) (v : Int) : Nat :=
  cell / w.card * w.card + (v % w.card).toNat

/-- The value of a width at an address. -/
def load (w : Width) (m : Bytes) (a : Nat) : Int := w.conv (m.load a w.size : Nat)

def store (w : Width) (m : Bytes) (a : Nat) (v : Int) : Bytes :=
  m.store a w.size (v % w.card).toNat

end Width

/-- The address that a value of 4 bytes points to. -/
def address (v : Int) : Nat := (v % Width.dword.card).toNat

inductive BinOp
  | add
  | sub
  | mul
  | div
  | mod
  | and
  | or
  | xor
  | shl
  | shr
  deriving DecidableEq, Repr

/-- The value of an operator on `int` operands, before it is converted; none where C defines none. -/
def BinOp.eval : BinOp → Int → Int → Option Int
  | add, l, r => some (l + r)
  | sub, l, r => some (l - r)
  | mul, l, r => some (l * r)
  | div, l, r => if r = 0 ∨ (l = -2147483648 ∧ r = -1) then none else some (l.tdiv r)
  | mod, l, r => if r = 0 ∨ (l = -2147483648 ∧ r = -1) then none else some (l.tmod r)
  | and, l, r => some (BitVec.ofInt 32 l &&& BitVec.ofInt 32 r).toInt
  | or, l, r => some (BitVec.ofInt 32 l ||| BitVec.ofInt 32 r).toInt
  | xor, l, r => some (BitVec.ofInt 32 l ^^^ BitVec.ofInt 32 r).toInt
  | shl, l, r => if 0 ≤ r ∧ r < 32 then some (l * 2 ^ r.toNat) else none
  | shr, l, r => if 0 ≤ r ∧ r < 32 then some (l >>> r.toNat) else none

/-- Operators that make the low bytes of their value of the low bytes of the second operand. -/
def BinOp.Modular : BinOp → Bool
  | div | mod => false
  | _ => true

end Ab32Vg1.ProofKit
