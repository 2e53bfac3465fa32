import Ab32Vg1.Finsh.Compiler
import Mathlib.Logic.Relation
import Mathlib.Logic.Function.Basic

/-! The finsh virtual machine: `finsh_vm_run` over the handlers of `finsh_ops.c`. A cell of the stack
is a `union finsh_value` of 4 bytes; a handler of a narrower width leaves its other bytes. -/

namespace Ab32Vg1.Finsh

open ProofKit

/-- The stack, `finsh_sp` as an index into it, `finsh_pc` as one into the text, and the memory. -/
structure Vm where
  stack : Int → Nat
  sp : Int
  pc : Nat
  mem : Bytes

/-- What the machine gets from elsewhere: of a function that `OP_call` calls, from its address and the
parameters, the value returned and the memory; and of an operator the value where C defines none. -/
structure Platform where
  call : Nat → List Nat → Bytes → Option (Nat × Bytes)
  undefined : BinOp → Int → Int → Int

/-- `op_table`. -/
def op_table : List Op :=
  [.noop,
    .bin .add .byte, .bin .add .word, .bin .add .dword,
    .bin .sub .byte, .bin .sub .word, .bin .sub .dword,
    .bin .div .byte, .bin .div .word, .bin .div .dword,
    .bin .mod .byte, .bin .mod .word, .bin .mod .dword,
    .bin .mul .byte, .bin .mul .word, .bin .mul .dword,
    .bin .and .byte, .bin .and .word, .bin .and .dword,
    .bin .or .byte, .bin .or .word, .bin .or .dword,
    .bin .xor .byte, .bin .xor .word, .bin .xor .dword,
    .bitwise .byte, .bitwise .word, .bitwise .dword,
    .bin .shl .byte, .bin .shl .word, .bin .shl .dword,
    .bin .shr .byte, .bin .shr .word, .bin .shr .dword,
    .ld .byte, .ld .word, .ld .dword,
    .ldValue .byte, .ldValue .word, .ldValue .dword,
    .st .byte, .st .word, .st .dword,
    .pop, .syscall,
    .ldValueStack .byte, .ldValueStack .word, .ldValueStack .dword]

theorem op_table_code (op : Op) : op_table[op.code.toNat]? = some op := by
  cases op with
  | bin op w => cases op <;> cases w <;> rfl
  | bitwise w | ld w | ldValue w | st w | ldValueStack w => cases w <;> rfl
  | noop | pop | syscall => rfl

namespace Vm

variable (sys : Platform) (text : Bytes)

/-- The member of a width of the cell at `i`. -/
def value (vm : Vm) (w : Width) (i : Int) : Int := w.conv (vm.stack i)

/-- The member of a width of the cell at `i` is set. -/
def set (vm : Vm) (w : Width) (i : Int) (v : Int) : Vm :=
  { vm with stack := Function.update vm.stack i (w.write (vm.stack i) v) }

/-- `OP_call`: the parameters are the top cells, the function the one below. -/
def call (vm : Vm) : Option Vm :=
  let n := (text vm.pc).toNat
  if 16 < n then none
  else
    (sys.call (vm.stack (vm.sp - 1 - n)) ((List.range n).map fun i => vm.stack (vm.sp - n + i)) vm.mem).map
      fun (r, mem) =>
        { vm.set .dword (vm.sp - 1 - n) r with sp := vm.sp - n, pc := vm.pc + 1, mem := mem }

/-- The handlers, with `finsh_pc` past the byte code. -/
def exec (vm : Vm) : Op → Option Vm
  | .noop => some vm
  | .bin op w =>
    let l := vm.value w (vm.sp - 2)
    let r := vm.value w (vm.sp - 1)
    some { vm.set w (vm.sp - 2) ((op.eval l r).getD (sys.undefined op l r)) with sp := vm.sp - 1 }
  | .bitwise w => some (vm.set w (vm.sp - 1) (-vm.value w (vm.sp - 1) - 1))
  | .ld w =>
    some { vm.set w vm.sp (text.load vm.pc w.size) with sp := vm.sp + 1, pc := vm.pc + w.size }
  | .ldValue w =>
    some { vm.set w vm.sp (w.load vm.mem (text.load vm.pc 4)) with sp := vm.sp + 1, pc := vm.pc + 4 }
  | .ldValueStack w =>
    some (vm.set w (vm.sp - 1) (w.load vm.mem (address (vm.value .dword (vm.sp - 1)))))
  | .st w =>
    some { vm with
      mem := w.store vm.mem (address (vm.value .dword (vm.sp - 2))) (vm.value w (vm.sp - 1))
      sp := vm.sp - 1 }
  | .pop => some { vm with sp := vm.sp - 1 }
  | .syscall => vm.call sys text

/-- One turn of the loop of `finsh_vm_run`. -/
def step (vm : Vm) : Option Vm :=
  op_table[(text vm.pc).toNat]?.bind (exec sys text { vm with pc := vm.pc + 1 })

/-- The loop, of at most `fuel` turns. -/
def run (max : Nat) : Nat → Vm → Option Vm
  | 0, vm => if vm.pc < max then none else some vm
  | fuel + 1, vm => if vm.pc < max then (vm.step sys text).bind (run max fuel) else some vm

end Vm

/-- The text segment that holds `code`, cleared behind it. -/
def text_segment (code : List UInt8) : Bytes := fun i => code.getD i 0

/-! ### Code in the text segment -/

/-- The text holds `code` from `pc` on. -/
def CodeAt (text : Bytes) : Nat → List UInt8 → Prop
  | _, [] => True
  | pc, b :: code => text pc = b ∧ CodeAt text (pc + 1) code

theorem CodeAt.append {text : Bytes} {pc : Nat} {a b : List UInt8} :
    CodeAt text pc (a ++ b) ↔ CodeAt text pc a ∧ CodeAt text (pc + a.length) b := by
  induction a generalizing pc with
  | nil => simp [CodeAt]
  | cons x a ih =>
    simp only [List.cons_append, CodeAt, List.length_cons, ih, and_assoc]
    rw [show pc + 1 + a.length = pc + (a.length + 1) by omega]

theorem CodeAt.text_segment (a b : List UInt8) :
    CodeAt (text_segment (a ++ b)) a.length b := by
  induction b generalizing a with
  | nil => trivial
  | cons x b ih =>
    refine ⟨by simp [Finsh.text_segment], ?_⟩
    have h := ih (a ++ [x])
    rwa [List.append_assoc, List.length_append] at h

theorem CodeAt.load {text : Bytes} {pc x : Nat} (h : CodeAt text pc (finsh_code_dword x)) :
    text.load pc 4 = x % 4294967296 := by
  obtain ⟨h0, h1, h2, h3, -⟩ := h
  simp only [Bytes.load, h0, h1, h2, h3, UInt8.toNat_ofNat']
  omega

theorem length_codeOne (w : Width) : (codeOne w).length = w.size := by cases w <;> rfl

/-! ### Runs -/

section Runs

variable {sys : Platform} {text : Bytes} {max : Nat} {vm vm' vm1 vm2 : Vm}

/-- Every turn moves `finsh_pc` on. -/
theorem Vm.step_pc (h : vm.step sys text = some vm') : vm.pc < vm'.pc := by
  obtain ⟨op, -, h⟩ := Option.bind_eq_some_iff.mp h
  cases op with
  | noop | bin op w | bitwise w | ldValueStack w | pop | st w =>
    cases h
    exact Nat.lt_succ_self _
  | ld w | ldValue w =>
    cases h
    show vm.pc < vm.pc + 1 + _
    omega
  | syscall =>
    rw [Vm.exec, Vm.call] at h
    split at h
    · cases h
    · obtain ⟨⟨r, mem⟩, -, rfl⟩ := Option.map_eq_some_iff.mp h
      show vm.pc < vm.pc + 1 + 1
      omega

/-- A turn that the text at `finsh_pc` decides. -/
theorem Vm.step_of_code {op : Op} (h : text vm.pc = op.code) :
    vm.step sys text = ({ vm with pc := vm.pc + 1 } : Vm).exec sys text op := by
  rw [Vm.step, h, op_table_code]
  rfl

/-- Turns of the loop. -/
def Steps (sys : Platform) (text : Bytes) : Vm → Vm → Prop :=
  Relation.ReflTransGen fun vm vm' => vm.step sys text = some vm'

theorem Steps.pc_le (h : Steps sys text vm vm') : vm.pc ≤ vm'.pc := by
  induction h with
  | refl => exact Nat.le_refl _
  | tail _ hs ih => exact Nat.le_trans ih (Nat.le_of_lt (Vm.step_pc hs))

/-- The loop goes through the turns that do not leave the text segment. -/
theorem Steps.run (h : Steps sys text vm vm') (hmax : vm'.pc ≤ max) {fuel : Nat}
    (hfuel : max - vm.pc ≤ fuel) :
    ∃ fuel', max - vm'.pc ≤ fuel' ∧ vm.run sys text max fuel = vm'.run sys text max fuel' := by
  induction h using Relation.ReflTransGen.head_induction_on generalizing fuel with
  | refl => exact ⟨fuel, hfuel, rfl⟩
  | head hs hr ih =>
    have hpc := Vm.step_pc hs
    have hle := Steps.pc_le hr
    cases fuel with
    | zero => omega
    | succ fuel =>
      obtain ⟨fuel', hf, heq⟩ := ih (show max - _ ≤ fuel by omega)
      refine ⟨fuel', hf, ?_⟩
      rw [Vm.run, if_pos (by omega), hs]
      exact heq

end Runs

end Ab32Vg1.Finsh
