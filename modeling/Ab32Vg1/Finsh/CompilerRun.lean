import Ab32Vg1.Finsh.TreeCode

/-! Running the code of a tree leaves its value on the stack and its memory, where no operand is read
wider than it was written. -/

namespace Ab32Vg1.Finsh

open ProofKit

namespace Vm

variable {vm : Vm} {w w' : Width} {i j : Int}

end Vm

/-- What code leaves that pushes one value: the cells below are as they were. -/
structure Pushes (vm vm' : Vm) (code : List UInt8) : Prop where
  pc : vm'.pc = vm.pc + code.length
  sp : vm'.sp = vm.sp + 1
  below : ∀ i, i < vm.sp → vm'.stack i = vm.stack i

/-- The code after code that pushes a value. -/
theorem Pushes.next {text : Bytes} {vm vm' : Vm} {code rest : List UInt8} (h : Pushes vm vm' code)
    (hcode : CodeAt text (vm.pc + code.length) rest) : CodeAt text vm'.pc rest := by
  rwa [h.pc]

section Ops

variable {sys : Platform} {text : Bytes} {vm vm' : Vm}

theorem Steps.one {op : Op} (hcode : text vm.pc = op.code)
    (hex : ({ vm with pc := vm.pc + 1 } : Vm).exec sys text op = some vm') : Steps sys text vm vm' :=
  Relation.ReflTransGen.single ((Vm.step_of_code hcode).trans hex)

theorem Steps.trans {vm1 : Vm} (h : Steps sys text vm vm1) (h' : Steps sys text vm1 vm') :
    Steps sys text vm vm' := Relation.ReflTransGen.trans h h'

variable (sys)

end Ops

/-! ### Trees -/

namespace Tree

/-- A variable of the variable table of finsh. -/
def IsVar : Tree → Bool
  | id (.var ..) => true
  | _ => false

/-- The width that the value of a tree has. -/
def valueWidth (t : Tree) : Width :=
  match t.ctype with
  | some (.ptr _) => .dword
  | _ => t.width

/-- Trees in which no operand is read wider than it is: no second operand is narrower than the first,
nor wider where its high bytes count, no operand of a minus is narrower than `long`, and steps are on
variables of finsh. -/
def Plain : Tree → Bool
  | charValue _ | intValue _ | longValue _ | id _ => true
  | bin op l r =>
    l.Plain && r.Plain && decide (l.width ≤ r.width) && (op.Modular || decide (l.width = r.width))
  | neg e => e.Plain && decide (e.width = .dword)
  | bitwise e | getValue e | getAddr e => e.Plain
  | assign l r => l.Plain && r.Plain && decide (l.width ≤ r.valueWidth)
  | pre _ e | post _ e => e.IsVar

end Tree

/-! ### Runs of the compiled code -/

end Ab32Vg1.Finsh
