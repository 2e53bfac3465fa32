import Ab32Vg1.Finsh.ParserFrame
import Ab32Vg1.Finsh.Vm
import Ab32Vg1.ProofKit.StackEffect

/-! How much code a line gives and where `finsh_sp` moves when it runs: every byte code has a number of
bytes and a move, and both add up over the tree. -/

namespace Ab32Vg1.Finsh

open ProofKit

def FINSH_TEXT_MAX : Nat := 128

def FINSH_STACK_MAX : Nat := 64

/-! ### Byte codes -/

/-- The operand bytes of a byte code. -/
def Op.operands : Op → Nat
  | ld w => w.size
  | ldValue _ => 4
  | syscall => 1
  | _ => 0

/-- How a byte code other than a call moves `finsh_sp`. -/
def Op.move : Op → Int
  | ld _ | ldValue _ => 1
  | bin _ _ | st _ | pop => -1
  | _ => 0

def Op.turn (o : Op) : StackTurn := ⟨1 + o.operands, o.move⟩

/-- `OP_call` with `n` parameters goes below them and the function, and then one up. -/
def callTurns (n : Nat) : List StackTurn := [⟨2, -(n + 1)⟩, ⟨0, 1⟩]

/-- Byte codes with their operands, as turns. -/
inductive Encodes : List UInt8 → List StackTurn → Prop
  | nil : Encodes [] []
  | op {o : Op} {operands code : List UInt8} {ts : List StackTurn} : o ≠ .syscall →
      operands.length = o.operands → Encodes code ts → Encodes (o.code :: operands ++ code) (o.turn :: ts)
  | call {n : UInt8} {code : List UInt8} {ts : List StackTurn} : n.toNat ≤ 16 → Encodes code ts →
      Encodes (Op.syscall.code :: n :: code) (callTurns n.toNat ++ ts)

namespace Encodes

variable {a b : List UInt8} {s t : List StackTurn}

theorem append (ha : Encodes a s) (hb : Encodes b t) : Encodes (a ++ b) (s ++ t) := by
  induction ha with
  | nil => exact hb
  | op ho hl _ ih =>
    rw [List.append_assoc]
    exact .op ho hl ih
  | call hn _ ih =>
    rw [List.append_assoc]
    exact .call hn ih

theorem length (h : Encodes a s) : a.length = (StackEffect.ofTurns s).bytes := by
  rw [StackEffect.ofTurns_bytes]
  induction h with
  | nil => rfl
  | op ho hl _ ih =>
    simp only [List.length_append, List.length_cons, List.map_cons, List.sum_cons, ih, hl, Op.turn]
    omega
  | call hn _ ih =>
    simp only [List.length_cons, List.map_append, List.sum_append, ih, callTurns, List.map_cons,
      List.map_nil, List.sum_cons, List.sum_nil]
    omega

/-- One byte code with its operands. -/
theorem single {o : Op} {operands : List UInt8} (ho : o ≠ .syscall) (hl : operands.length = o.operands) :
    Encodes (o.code :: operands) [o.turn] := by
  have h := Encodes.op ho hl .nil
  rw [List.append_nil] at h
  exact h

end Encodes

/-! ### Runs -/

/-- The text has turns at a place, and is cleared behind them. -/
def AtCode (text : Bytes) (pc : Nat) (ts : List StackTurn) : Prop :=
  ∃ code, Encodes code ts ∧ CodeAt text pc code ∧ ∀ i, pc + code.length ≤ i → text i = 0

/-- The turns of `finsh_vm_run` over a text segment of `max` bytes. -/
def VmReaches (sys : Platform) (max : Nat) (text : Bytes) : Vm → Vm → Prop :=
  Relation.ReflTransGen fun vm vm' => vm.pc < max ∧ vm.step sys text = some vm'

/-- The machine as `finsh_vm_run` starts it. -/
def Vm.init (mem : Bytes) : Vm := { stack := fun _ => 0, sp := 0, pc := 0, mem }

/-- `finsh_sp` stays in the stack, also where a call goes below the parameters, whatever the functions
called do. -/
def StackBounded (text : Bytes) : Prop :=
  ∀ sys mem vm, VmReaches sys FINSH_TEXT_MAX text (.init mem) vm →
    0 ≤ vm.sp ∧ vm.sp ≤ FINSH_STACK_MAX ∧
      (vm.pc < FINSH_TEXT_MAX → text vm.pc = Op.syscall.code → ((text (vm.pc + 1)).toNat : Int) < vm.sp)

section Machine

variable {sys : Platform} {text : Bytes} {vm vm0 vm' : Vm} {ts : List StackTurn} {pc limit : Nat}

/-- The turn at a place. -/
theorem AtCode.cases (h : AtCode text pc ts) :
    (ts = [] ∧ ∀ i, pc ≤ i → text i = 0) ∨
      (∃ (o : Op) (rest : List StackTurn), o ≠ .syscall ∧ ts = o.turn :: rest ∧ text pc = o.code ∧
        AtCode text (pc + 1 + o.operands) rest) ∨
      ∃ n rest, n ≤ 16 ∧ ts = callTurns n ++ rest ∧ text pc = Op.syscall.code ∧
        (text (pc + 1)).toNat = n ∧ AtCode text (pc + 2) rest := by
  obtain ⟨code, henc, hcode, hz⟩ := h
  cases henc with
  | nil => exact .inl ⟨rfl, hz⟩
  | @op o operands code rest ho hl henc =>
    obtain ⟨hop, hcode⟩ := hcode
    have hrest := (CodeAt.append.mp hcode).2
    rw [hl] at hrest
    refine .inr (.inl ⟨o, rest, ho, rfl, hop, code, henc, hrest, fun i hi => hz i ?_⟩)
    simp only [List.cons_append, List.length_cons, List.length_append, hl]
    omega
  | @call n code rest hn henc =>
    obtain ⟨hop, hparam, hcode⟩ := hcode
    refine .inr (.inr ⟨n.toNat, rest, hn, rfl, hop, by rw [hparam], code, henc, hcode,
      fun i hi => hz i ?_⟩)
    simp only [List.length_cons]
    omega

theorem code_ne_syscall {o : Op} (ho : o ≠ .syscall) : o.code ≠ Op.syscall.code := by
  intro h
  have hsome : some o = some Op.syscall := by
    rw [← op_table_code o, h, op_table_code]
  exact ho (Option.some.inj hsome)

/-- What a byte code other than a call does. -/
theorem step_move (sys : Platform) {o : Op} (ho : o ≠ .syscall) (hcode : text vm.pc = o.code) :
    ∃ vm', vm.step sys text = some vm' ∧ vm'.sp = vm.sp + o.move ∧ vm'.pc = vm.pc + 1 + o.operands := by
  rw [Vm.step_of_code hcode]
  cases o with
  | syscall => exact absurd rfl ho
  | noop | bitwise w | ldValueStack w => exact ⟨_, rfl, (Int.add_zero _).symm, rfl⟩
  | bin op w | st w | pop | ld w | ldValue w => exact ⟨_, rfl, rfl, rfl⟩

/-- What a call does when the function returns. -/
theorem step_call (hcode : text vm.pc = Op.syscall.code) (h : vm.step sys text = some vm') :
    vm'.sp = vm.sp - (text (vm.pc + 1)).toNat ∧ vm'.pc = vm.pc + 2 := by
  rw [Vm.step_of_code hcode] at h
  simp only [Vm.exec, Vm.call] at h
  split at h
  · cases h
  · obtain ⟨⟨r, mem⟩, -, rfl⟩ := Option.map_eq_some_iff.mp h
    exact ⟨rfl, rfl⟩

theorem step_call_returns (hcall : ∀ f params mem, (sys.call f params mem).isSome)
    (hcode : text vm.pc = Op.syscall.code) (hn : (text (vm.pc + 1)).toNat ≤ 16) :
    ∃ vm', vm.step sys text = some vm' := by
  rw [Vm.step_of_code hcode]
  simp only [Vm.exec, Vm.call]
  rw [if_neg (by omega)]
  exact Option.isSome_iff_exists.mp (by rw [Option.isSome_map]; exact hcall _ _ _)

theorem heights_call (h : Int) (n : Nat) (rest : List StackTurn) :
    heights h (callTurns n ++ rest) = h :: (h - n - 1) :: heights (h - n) rest := by
  simp only [callTurns, List.cons_append, List.nil_append, heights]
  rw [show h + -((n : Int) + 1) = h - n - 1 by omega, show h - (n : Int) - 1 + 1 = h - n by omega]

/-- In a run the text has turns at `finsh_pc` whose places are places of the whole code. -/
theorem VmReaches.places (hstart : AtCode text vm0.pc ts) (h : VmReaches sys limit text vm0 vm) :
    ∃ rest, AtCode text vm.pc rest ∧ ∀ x ∈ heights vm.sp rest, x ∈ heights vm0.sp ts := by
  induction h with
  | refl => exact ⟨ts, hstart, fun _ hx => hx⟩
  | @tail vm1 vm2 _ hstep ih =>
    obtain ⟨rest, hat, hrest⟩ := ih
    rcases hat.cases with ⟨rfl, hz⟩ | ⟨o, rest, ho, rfl, hcode, hat'⟩ |
      ⟨n, rest, hn, rfl, hcode, hparam, hat'⟩
    · -- behind the code, `OP_no_op`
      have hnoop : text vm1.pc = Op.noop.code := hz _ (Nat.le_refl _)
      obtain ⟨vm', hs, hsp, hpc⟩ := step_move sys (by decide) hnoop
      rw [hstep.2] at hs
      cases hs
      have hpc1 : vm1.pc ≤ vm2.pc := by rw [hpc]; omega
      refine ⟨[], ⟨[], .nil, trivial, fun i hi => hz i (le_trans hpc1 hi)⟩, ?_⟩
      rw [hsp, show vm1.sp + Op.noop.move = vm1.sp from Int.add_zero _]
      exact hrest
    · obtain ⟨vm', hs, hsp, hpc⟩ := step_move sys ho hcode
      rw [hstep.2] at hs
      cases hs
      refine ⟨rest, hpc ▸ hat', fun x hx => hrest x ?_⟩
      rw [hsp] at hx
      exact List.mem_cons_of_mem _ hx
    · obtain ⟨hsp, hpc⟩ := step_call hcode hstep.2
      refine ⟨rest, hpc ▸ hat', fun x hx => hrest x ?_⟩
      rw [hsp, hparam] at hx
      rw [heights_call]
      exact List.mem_cons_of_mem _ (List.mem_cons_of_mem _ hx)

/-- Every place of the code is reached when the calls return. -/
theorem AtCode.reached {P : Int → Prop} (hat : AtCode text vm.pc ts)
    (hcall : ∀ f params mem, (sys.call f params mem).isSome) (hreach : VmReaches sys limit text vm0 vm)
    (hfit : vm.pc + (StackEffect.ofTurns ts).bytes ≤ limit)
    (hstack : ∀ vm, VmReaches sys limit text vm0 vm → P vm.sp ∧
      (vm.pc < limit → text vm.pc = Op.syscall.code → P (vm.sp - (text (vm.pc + 1)).toNat - 1))) :
    ∀ x ∈ heights vm.sp ts, P x := by
  obtain ⟨code, henc, hcode, hz⟩ := hat
  clear hz
  induction henc generalizing vm with
  | nil => exact fun x hx => List.mem_singleton.mp hx ▸ (hstack vm hreach).1
  | @op o operands code ts ho hl henc ih =>
    obtain ⟨hop, hcode⟩ := hcode
    have hrest := (CodeAt.append.mp hcode).2
    rw [hl] at hrest
    have hbytes : (StackEffect.ofTurns (o.turn :: ts)).bytes =
      1 + o.operands + (StackEffect.ofTurns ts).bytes := rfl
    obtain ⟨vm', hs, hsp, hpc⟩ := step_move sys ho hop
    have htail := ih (hreach.tail ⟨by omega, hs⟩) (by omega) (hpc ▸ hrest)
    rw [hsp] at htail
    exact List.forall_mem_cons.mpr ⟨(hstack vm hreach).1, htail⟩
  | @call n code ts hn henc ih =>
    obtain ⟨hop, hparam, hcode⟩ := hcode
    have hbytes : (StackEffect.ofTurns (callTurns n.toNat ++ ts)).bytes =
        2 + (0 + (StackEffect.ofTurns ts).bytes) := rfl
    have hlt : vm.pc < limit := by omega
    obtain ⟨vm', hs⟩ := step_call_returns hcall hop (hparam ▸ hn)
    obtain ⟨hsp, hpc⟩ := step_call hop hs
    obtain ⟨hhere, hbelow⟩ := hstack vm hreach
    have hbelow := hbelow hlt hop
    have htail := ih (hreach.tail ⟨hlt, hs⟩) (by omega) (hpc ▸ hcode)
    rw [hparam] at hsp hbelow
    rw [hsp] at htail
    rw [heights_call]
    exact List.forall_mem_cons.mpr ⟨hhere, List.forall_mem_cons.mpr ⟨hbelow, htail⟩⟩

/-- The stack keeps its bounds exactly when the code finds the values it needs and its moves up are
not too many. -/
theorem stackBounded_iff {code : List UInt8} (h : Encodes code ts) (hfit : code.length ≤ FINSH_TEXT_MAX)
    (hrise : (StackEffect.ofTurns ts).rise ≤ FINSH_STACK_MAX) :
    StackBounded (text_segment code) ↔ (StackEffect.ofTurns ts).need = 0 := by
  have hat (mem : Bytes) : AtCode (text_segment code) (Vm.init mem).pc ts :=
    ⟨code, h, CodeAt.text_segment [] code, fun i hi => by
      have hi : code.length ≤ i := by simpa [Vm.init] using hi
      simp [text_segment, hi]⟩
  constructor
  · intro hb
    let sys : Platform := ⟨fun _ _ mem => some (0, mem), fun _ _ _ => 0⟩
    have hbytes : (Vm.init fun _ => 0).pc + (StackEffect.ofTurns ts).bytes ≤ FINSH_TEXT_MAX := by
      rw [← h.length]
      exact (Nat.zero_add _).trans_le hfit
    have hreturns : ∀ f params mem, (sys.call f params mem).isSome := fun _ _ _ => rfl
    have hplaces := (hat fun _ => 0).reached (P := fun x => 0 ≤ x) hreturns .refl hbytes fun vm hr => by
        obtain ⟨hlo, -, hcall⟩ := hb sys _ vm hr
        exact ⟨hlo, fun hlt hop => by have := hcall hlt hop; omega⟩
    exact Nat.le_zero.mp (Int.ofNat_le.mp (heights_nonneg.mp hplaces))
  · intro hneed sys mem vm hr
    obtain ⟨rest, hrest, hplaces⟩ := hr.places (hat mem)
    have hnonneg : ∀ x ∈ heights 0 ts, 0 ≤ x := heights_nonneg.mpr (by rw [hneed]; exact le_refl _)
    have hin := hplaces _ (mem_heights_self _ _)
    have hle : vm.sp ≤ 0 + (StackEffect.ofTurns ts).rise := heights_le hin
    refine ⟨hnonneg _ hin, by omega, fun hlt hop => ?_⟩
    rcases hrest.cases with ⟨-, hz⟩ | ⟨o, rest, ho, -, hcode, -⟩ | ⟨n, rest, hn, rfl, -, hparam, -⟩
    · rw [hz _ (Nat.le_refl _)] at hop
      exact absurd hop (by decide)
    · exact absurd (hcode.symm.trans hop) (code_ne_syscall ho)
    · have hbelow := hnonneg _ (hplaces (vm.sp - n - 1) (by rw [heights_call]; simp))
      omega

end Machine

/-! ### Nodes -/

/-- An identifier loads its address, or the value there. -/
def identTurns (id : Ident) (address : Bool) : List StackTurn :=
  match id with
  | .syscall .. => [(Op.ld .dword).turn]
  | _ =>
    match id.type.width with
    | none => []
    | some w => [if address then (Op.ld .dword).turn else (Op.ldValue w).turn]

def preTurns (op : BinOp) (w : Width) : List StackTurn :=
  [(Op.ldValue w).turn, (Op.ld w).turn, (Op.bin op w).turn, (Op.st w).turn, (Op.ldValueStack .dword).turn]

def postTurns (op : BinOp) (w : Width) : List StackTurn :=
  [(Op.ld .dword).turn, (Op.ldValue w).turn, (Op.ld w).turn, (Op.bin op w).turn, (Op.st w).turn,
    Op.pop.turn]

/-- The turns of a switch on a data type that emits nothing by default. -/
def widthTurns (data_type : Nat) (turns : Width → List StackTurn) : List StackTurn :=
  match width data_type with
  | some w => turns w
  | none => []

/-- The turns of a step by one whose operand is the first child. -/
def stepTurns (child : Node) (data_type : Nat) (turns : Width → List StackTurn) : List StackTurn :=
  match child with
  | .node (.ID _) .. => widthTurns data_type turns
  | _ => []

/-- What a node adds behind its children. -/
def nodeTurns (t : NodeType) (data_type : Nat) (address : Bool) (child : Node) : List StackTurn :=
  match t with
  | .ID id => identTurns id address
  | .VALUE_CHAR _ => [(Op.ld .byte).turn]
  | .VALUE_INT _ | .VALUE_LONG _ | .VALUE_NULL _ | .VALUE_STRING _ => [(Op.ld .dword).turn]
  | .SYS_BIN op => widthTurns data_type fun w => [(Op.bin op w).turn]
  | .SYS_BITWISE => widthTurns data_type fun w => [(Op.bitwise w).turn]
  | .SYS_FUNC =>
    match child with
    | .null => []
    | _ => callTurns child.sibling.siblings
  | .SYS_ASSIGN =>
    match child with
    | .node (.ID _) d .. => widthTurns d fun w => [(Op.st w).turn, (Op.ldValueStack w).turn]
    | .node .SYS_GETVALUE d .. => widthTurns (d % 16) fun w => [(Op.st w).turn, (Op.ldValueStack w).turn]
    | _ => []
  | .SYS_PREINC => stepTurns child data_type (preTurns .add)
  | .SYS_PREDEC => stepTurns child data_type (preTurns .sub)
  | .SYS_INC => stepTurns child data_type (postTurns .add)
  | .SYS_DEC => stepTurns child data_type (postTurns .sub)
  | .SYS_NULL => List.replicate 4 Op.noop.turn
  | .SYS_GETVALUE => if address then [] else widthTurns data_type fun w => [(Op.ldValueStack w).turn]
  | .SYS_GETADDR | .SYS_CAST => []

section Nodes

variable {t : NodeType} {d : Nat} {a : Bool} {child : Node}

/-- A byte code without operands. -/
theorem Encodes.cons {o : Op} {code : List UInt8} {ts : List StackTurn} (ho : o ≠ .syscall)
    (h0 : o.operands = 0) (h : Encodes code ts) : Encodes (o.code :: code) (o.turn :: ts) := by
  have hl : ([] : List UInt8).length = o.operands := h0.symm
  exact .op ho hl h

theorem codeIdent_encodes (id : Ident) (address : Bool) :
    Encodes (codeIdent id address) (identTurns id address) := by
  have hload (ow : Option Width) (x : Nat) :
      Encodes
        (match ow with
          | none => []
          | some w => (if address then (Op.ld .dword).code else (Op.ldValue w).code) :: finsh_code_dword x)
        (match ow with
          | none => []
          | some w => [if address then (Op.ld .dword).turn else (Op.ldValue w).turn]) := by
    cases ow with
    | none => exact .nil
    | some w =>
      cases address with
      | true => exact .single (o := .ld .dword) (by simp) rfl
      | false => exact .single (o := .ldValue w) (by simp) rfl
  cases id with
  | syscall addr func => exact .single (o := .ld .dword) (by simp) rfl
  | var addr type => exact hload _ _
  | sysvar addr type v => exact hload _ _

theorem codePre_encodes (op : BinOp) (id : Ident) (w : Width) :
    Encodes (codePre op id w) (preTurns op w) := by
  have hvalue : Encodes ((Op.ldValue w).code :: finsh_code_dword id.varValue) [(Op.ldValue w).turn] :=
    .single (by simp) rfl
  have hone : Encodes ((Op.ld w).code :: codeOne w) [(Op.ld w).turn] :=
    .single (by simp) (length_codeOne w)
  exact (hvalue.append hone).append
    (.cons (by simp) rfl (.cons (by simp) rfl (.cons (by simp) rfl .nil)))

theorem codePost_encodes (op : BinOp) (id : Ident) (w : Width) :
    Encodes (codePost op id w) (postTurns op w) := by
  have haddress : Encodes ((Op.ld .dword).code :: finsh_code_dword id.varValue) [(Op.ld .dword).turn] :=
    .single (by simp) rfl
  have hvalue : Encodes ((Op.ldValue w).code :: finsh_code_dword id.varValue) [(Op.ldValue w).turn] :=
    .single (by simp) rfl
  have hone : Encodes ((Op.ld w).code :: codeOne w) [(Op.ld w).turn] :=
    .single (by simp) (length_codeOne w)
  exact ((haddress.append hvalue).append hone).append
    (.cons (by simp) rfl (.cons (by simp) rfl (.cons (by simp) rfl .nil)))

theorem codeWidth_encodes {code : Width → List UInt8} {turns : Width → List StackTurn}
    (h : ∀ w, Encodes (code w) (turns w)) (d : Nat) : Encodes (codeWidth d code) (widthTurns d turns) := by
  rw [codeWidth, widthTurns]
  cases width d with
  | none => exact .nil
  | some w => exact h w

theorem codeStep_encodes {code : Ident → Width → List UInt8} {turns : Width → List StackTurn}
    (h : ∀ id w, Encodes (code id w) (turns w)) (child : Node) (d : Nat) :
    Encodes (codeStep child d code) (stepTurns child d turns) := by
  cases child with
  | null => exact .nil
  | node t d' a c s =>
    cases t with
    | ID id => exact codeWidth_encodes (h id) d
    | _ => exact .nil

theorem Node.siblings_le (n : Node) : n.siblings ≤ n.size := by
  induction n with
  | null => exact Nat.le_refl _
  | node t d a c s _ ih =>
    simp only [siblings, size]
    omega

theorem Node.sibling_size (n : Node) : n.sibling.size ≤ n.size := by
  cases n with
  | null => exact Nat.le_refl _
  | node t d a c s =>
    simp only [sibling, size]
    omega

theorem emit_encodes (hchild : child.size ≤ FINSH_NODE_MAX) :
    Encodes (emit t d a child) (nodeTurns t d a child) := by
  have hstore (w : Width) : Encodes [(Op.st w).code, (Op.ldValueStack w).code]
      [(Op.st w).turn, (Op.ldValueStack w).turn] :=
    .cons (o := .st w) (by simp) rfl (.cons (o := .ldValueStack w) (by simp) rfl .nil)
  cases t with
  | ID id => exact codeIdent_encodes id a
  | VALUE_CHAR c => exact .single (o := .ld .byte) (by simp) rfl
  | VALUE_INT v | VALUE_LONG v | VALUE_NULL v | VALUE_STRING v =>
    exact .single (o := .ld .dword) (by simp) rfl
  | SYS_BIN op => exact codeWidth_encodes (fun w => .cons (o := .bin op w) (by simp) rfl .nil) d
  | SYS_BITWISE => exact codeWidth_encodes (fun w => .cons (o := .bitwise w) (by simp) rfl .nil) d
  | SYS_FUNC =>
    cases child with
    | null => exact .nil
    | node t' d' a' c s =>
      have hparams : s.siblings ≤ 16 := by
        have := s.siblings_le
        have := (Node.node t' d' a' c s).sibling_size
        rw [FINSH_NODE_MAX] at hchild
        simp only [Node.sibling] at this
        omega
      have hn : (UInt8.ofNat s.siblings).toNat = s.siblings := by
        rw [UInt8.toNat_ofNat', Nat.mod_eq_of_lt (by omega)]
      have hcall := Encodes.call (hn.trans_le hparams) .nil
      rw [hn] at hcall
      exact hcall
  | SYS_ASSIGN =>
    cases child with
    | null => exact .nil
    | node t' d' a' c s =>
      cases t' with
      | ID id => exact codeWidth_encodes hstore d'
      | SYS_GETVALUE => exact codeWidth_encodes hstore (d' % 16)
      | _ => exact .nil
  | SYS_PREINC => exact codeStep_encodes (codePre_encodes .add) child d
  | SYS_PREDEC => exact codeStep_encodes (codePre_encodes .sub) child d
  | SYS_INC => exact codeStep_encodes (codePost_encodes .add) child d
  | SYS_DEC => exact codeStep_encodes (codePost_encodes .sub) child d
  | SYS_NULL =>
    exact .cons (o := .noop) (by simp) rfl (.cons (o := .noop) (by simp) rfl
      (.cons (o := .noop) (by simp) rfl (.cons (o := .noop) (by simp) rfl .nil)))
  | SYS_GETVALUE =>
    cases a with
    | true => exact .nil
    | false => exact codeWidth_encodes (fun w => .cons (o := .ldValueStack w) (by simp) rfl .nil) d
  | SYS_GETADDR | SYS_CAST => exact .nil

theorem widthTurns_rise {turns : Width → List StackTurn} {n : Nat}
    (h : ∀ w, (StackEffect.ofTurns (turns w)).rise ≤ n) (d : Nat) :
    (StackEffect.ofTurns (widthTurns d turns)).rise ≤ n := by
  rw [widthTurns]
  split
  · exact h _
  · exact Nat.zero_le _

theorem stepTurns_rise {turns : Width → List StackTurn} {n : Nat}
    (h : ∀ w, (StackEffect.ofTurns (turns w)).rise ≤ n) (child : Node) (d : Nat) :
    (StackEffect.ofTurns (stepTurns child d turns)).rise ≤ n := by
  rw [stepTurns.eq_def]
  split
  · exact widthTurns_rise h d
  · exact Nat.zero_le _

/-- A node moves `finsh_sp` up three times at most. -/
theorem nodeTurns_rise (t : NodeType) (d : Nat) (a : Bool) (child : Node) :
    (StackEffect.ofTurns (nodeTurns t d a child)).rise ≤ 3 := by
  have hpre (op : BinOp) (w : Width) : (StackEffect.ofTurns (preTurns op w)).rise ≤ 3 :=
    show 2 ≤ 3 by decide
  have hpost (op : BinOp) (w : Width) : (StackEffect.ofTurns (postTurns op w)).rise ≤ 3 :=
    show 3 ≤ 3 by decide
  have hnone (w : Width) : (0 : Nat) ≤ 3 := Nat.zero_le 3
  cases t with
  | ID id =>
    rw [nodeTurns, identTurns.eq_def]
    split
    · exact show 1 ≤ 3 by decide
    · split
      · exact Nat.zero_le 3
      · split <;> exact show 1 ≤ 3 by decide
  | VALUE_CHAR c => exact show 1 ≤ 3 by decide
  | VALUE_INT v | VALUE_LONG v | VALUE_NULL v | VALUE_STRING v => exact show 1 ≤ 3 by decide
  | SYS_BIN op | SYS_BITWISE => exact widthTurns_rise hnone d
  | SYS_FUNC =>
    cases child with
    | null => exact Nat.zero_le 3
    | node t' d' a' c s =>
      show (-((s.siblings : Int) + 1)).toNat + 1 ≤ 3
      omega
  | SYS_ASSIGN =>
    cases child with
    | null => exact Nat.zero_le 3
    | node t' d' a' c s =>
      cases t' with
      | ID id => exact widthTurns_rise hnone d'
      | SYS_GETVALUE => exact widthTurns_rise hnone (d' % 16)
      | _ => exact Nat.zero_le 3
  | SYS_PREINC => exact stepTurns_rise (hpre .add) child d
  | SYS_PREDEC => exact stepTurns_rise (hpre .sub) child d
  | SYS_INC => exact stepTurns_rise (hpost .add) child d
  | SYS_DEC => exact stepTurns_rise (hpost .sub) child d
  | SYS_NULL => exact Nat.zero_le 3
  | SYS_GETVALUE =>
    cases a with
    | true => exact Nat.zero_le 3
    | false => exact widthTurns_rise hnone d
  | SYS_GETADDR | SYS_CAST => exact Nat.zero_le 3

end Nodes

/-! ### Trees -/

/-- The effect of a tree and its siblings: that of its children, its own, and that of the siblings. -/
def Node.effect : Node → StackEffect
  | .null => .none
  | .node t d a c s => (c.effect.seq (.ofTurns (nodeTurns t d a c))).seq s.effect

/-- The effect of statements: a value is popped between one and the next. -/
def statementsEffect : Node → StackEffect
  | .null => .none
  | .node t d a c s =>
    (Node.effect (.node t d a c .null)).seq
      (if s = .null then .none else (StackEffect.ofTurn Op.pop.turn).seq (statementsEffect s))

/-- The effect of a line whose root is `root`. -/
def lineEffect (root : Node) : StackEffect := statementsEffect (finsh_type_check root false)

section Trees

variable {n root : Node}

theorem compile_encodes (hn : n.size ≤ FINSH_NODE_MAX) :
    ∃ ts, Encodes (finsh_compile n) ts ∧ StackEffect.ofTurns ts = n.effect := by
  induction n with
  | null => exact ⟨[], .nil, rfl⟩
  | node t d a c s ihc ihs =>
    rw [Node.size] at hn
    obtain ⟨cs, hc, hce⟩ := ihc (by omega)
    obtain ⟨ss, hs, hse⟩ := ihs (by omega)
    have hown : Encodes (emit t d a c) (nodeTurns t d a c) := emit_encodes (by omega)
    refine ⟨cs ++ nodeTurns t d a c ++ ss, (hc.append hown).append hs, ?_⟩
    rw [StackEffect.ofTurns_append, StackEffect.ofTurns_append, hce, hse, Node.effect]

theorem statements_encodes (hn : n.size ≤ FINSH_NODE_MAX) :
    ∃ ts, Encodes (compileStatements n) ts ∧ StackEffect.ofTurns ts = statementsEffect n := by
  induction n with
  | null => exact ⟨[], .nil, rfl⟩
  | node t d a c s _ ih =>
    rw [Node.size] at hn
    have hsize : (Node.node t d a c .null).size ≤ FINSH_NODE_MAX := by
      simp only [Node.size]
      omega
    obtain ⟨ts, hts, hte⟩ := compile_encodes hsize
    obtain ⟨ss, hss, hse⟩ := ih (by omega)
    by_cases hs : s = .null
    · refine ⟨ts, ?_, ?_⟩
      · rw [compileStatements, if_pos hs, List.append_nil]
        exact hts
      · rw [statementsEffect, if_pos hs, StackEffect.seq_none, hte]
    · refine ⟨ts ++ Op.pop.turn :: ss, ?_, ?_⟩
      · rw [compileStatements, if_neg hs]
        exact hts.append (.cons (by simp) rfl hss)
      · rw [statementsEffect, if_neg hs, StackEffect.ofTurns_append, hte, StackEffect.ofTurns, hse]

theorem Node.effect_rise (n : Node) : n.effect.rise ≤ 3 * n.size := by
  induction n with
  | null => exact Nat.le_refl 0
  | node t d a c s ihc ihs =>
    have hown := nodeTurns_rise t d a c
    have hrise : (Node.effect (.node t d a c s)).rise =
      c.effect.rise + (StackEffect.ofTurns (nodeTurns t d a c)).rise + s.effect.rise := rfl
    rw [hrise, Node.size]
    omega

theorem statementsEffect_rise (n : Node) : (statementsEffect n).rise ≤ 3 * n.size := by
  induction n with
  | null => exact Nat.le_refl 0
  | node t d a c s _ ih =>
    have htree := Node.effect_rise (.node t d a c .null)
    have hrise : (statementsEffect (.node t d a c s)).rise =
      (Node.effect (.node t d a c .null)).rise +
        (if s = .null then StackEffect.none
          else (StackEffect.ofTurn Op.pop.turn).seq (statementsEffect s)).rise := rfl
    have hrest : (if s = .null then StackEffect.none
        else (StackEffect.ofTurn Op.pop.turn).seq (statementsEffect s)).rise ≤ 3 * s.size := by
      split
      · exact Nat.zero_le _
      · exact (Nat.zero_add _).trans_le ih
    simp only [Node.size] at htree ⊢
    rw [hrise]
    omega

theorem type_check_size (n : Node) (is_addr : Bool) : (finsh_type_check n is_addr).size = n.size := by
  induction n generalizing is_addr with
  | null => rfl
  | node t d a c s ihc ihs => rw [finsh_type_check, Node.size, Node.size, ihc, ihs]

/-- The code of a tree fits, and its run stays in the stack. -/
def CodeBounded (root : Node) : Prop :=
  (finsh_compiler_run root).length ≤ FINSH_TEXT_MAX ∧ StackBounded (text_segment (finsh_compiler_run root))

theorem codeBounded_iff (hroot : root.size ≤ FINSH_NODE_MAX) :
    CodeBounded root ↔ (lineEffect root).bytes ≤ FINSH_TEXT_MAX ∧ (lineEffect root).need = 0 := by
  have hsize : (finsh_type_check root false).size ≤ FINSH_NODE_MAX := by rwa [type_check_size]
  obtain ⟨ts, hts, heffect⟩ := statements_encodes hsize
  have hrise := statementsEffect_rise (finsh_type_check root false)
  have hlength : (finsh_compiler_run root).length = (lineEffect root).bytes := by
    rw [lineEffect, ← heffect]
    exact hts.length
  rw [CodeBounded, hlength]
  refine and_congr_right fun hfit => ?_
  rw [← hlength] at hfit
  rw [lineEffect, ← heffect]
  refine stackBounded_iff hts hfit ?_
  rw [heffect]
  rw [FINSH_NODE_MAX] at hsize
  rw [FINSH_STACK_MAX]
  omega

end Trees

/-! ### Lines -/

theorem nodes_respected :
    Respected fun p p' => p.nodes ≤ FINSH_NODE_MAX → p'.nodes ≤ FINSH_NODE_MAX where
  refl p h := h
  trans h h' hp := h' (h hp)
  token h hp := by rwa [next_token_nodes h]
  replay p hp := hp
  error p _ hp := hp
  node hlt _ := hlt
  string p hp := hp
  vars p v hp := hp

/-- The code of a line fits in `text_segment`, and its run stays in `finsh_vm_stack`, exactly when its
nodes give no more bytes and each finds the values that it takes. -/
theorem finsh_code_bounds {symbols : Symbols} {n : Nat} {vars : List Var} {line : List UInt8}
    {root : Node} {self : Parser} (h : finsh_parser_run symbols n vars line = some (root, self)) :
    CodeBounded root ↔ (lineEffect root).bytes ≤ FINSH_TEXT_MAX ∧ (lineEffect root).need = 0 := by
  obtain ⟨hnodes, hsize⟩ := parser_run_keeps nodes_respected h
  exact codeBounded_iff (hsize.trans (hnodes (Nat.zero_le _)))

/-- A system without symbols. -/
def noSymbols : Symbols :=
  { global_variable := 4096
    sysvar_table := []
    sysvar_list := []
    syscall_table := []
    syscall_list := []
    heap_allocate := fun _ _ => none }

/-- The variable `a` of a type. -/
def variableA (type : FinshType) : List Var :=
  { name := [chr 'a'], type } :: List.replicate 7 ⟨[], .unknown⟩

/-- `a++;` a number of times. -/
def stepsLine (n : Nat) : List UInt8 := (List.replicate n [chr 'a', chr '+', chr '+', chr ';']).flatten

/-- Five steps of a `long` give 119 bytes. -/
theorem five_steps_bounded : ∃ root self,
    finsh_parser_run noSymbols 40 (variableA .long) (stepsLine 5) = some (root, self) ∧
      CodeBounded root := by
  have hrun : (finsh_parser_run noSymbols 40 (variableA .long) (stepsLine 5)).map
      (fun r => ((lineEffect r.1).bytes, (lineEffect r.1).need)) = some (119, 0) := by decide +kernel
  obtain ⟨⟨root, self⟩, hparse, heffect⟩ := Option.map_eq_some_iff.mp hrun
  obtain ⟨hbytes, hneed⟩ := Prod.mk.inj heffect
  dsimp only at hbytes hneed
  exact ⟨root, self, hparse, (finsh_code_bounds hparse).mpr ⟨by rw [hbytes]; decide, hneed⟩⟩

/-- Six steps of a `long` give 143 bytes. The second statement of `a;a;` with a `void *` pops a value that
the first did not leave. -/
theorem finsh_code_unbounded :
    (∃ root self, finsh_parser_run noSymbols 40 (variableA .long) (stepsLine 6) = some (root, self) ∧
      self.token.errno = FINSH_ERROR_OK ∧ ¬CodeBounded root) ∧
    ∃ root self, finsh_parser_run noSymbols 40 (variableA .voidp) [chr 'a', chr ';', chr 'a', chr ';'] =
        some (root, self) ∧ self.token.errno = FINSH_ERROR_OK ∧ ¬CodeBounded root := by
  constructor
  · have hrun : (finsh_parser_run noSymbols 40 (variableA .long) (stepsLine 6)).map
        (fun r => (r.2.token.errno, (finsh_compiler_run r.1).length)) = some (0, 143) := by
      decide +kernel
    obtain ⟨⟨root, self⟩, hparse, hresult⟩ := Option.map_eq_some_iff.mp hrun
    obtain ⟨herr, hlength⟩ := Prod.mk.inj hresult
    dsimp only at herr hlength
    refine ⟨root, self, hparse, herr, fun hb => ?_⟩
    have hfit := hb.1
    rw [hlength] at hfit
    exact absurd hfit (by decide)
  · have hrun : (finsh_parser_run noSymbols 40 (variableA .voidp) [chr 'a', chr ';', chr 'a', chr ';']).map
        (fun r => (r.2.token.errno, r.1.size, (lineEffect r.1).need)) = some (0, 2, 1) := by
      decide +kernel
    obtain ⟨⟨root, self⟩, hparse, hresult⟩ := Option.map_eq_some_iff.mp hrun
    obtain ⟨herr, hrest⟩ := Prod.mk.inj hresult
    obtain ⟨hsize, hneed⟩ := Prod.mk.inj hrest
    dsimp only at herr hsize hneed
    refine ⟨root, self, hparse, herr, fun hb => ?_⟩
    have hzero := ((codeBounded_iff (by rw [hsize]; decide)).mp hb).2
    rw [hneed] at hzero
    exact absurd hzero (by decide)

end Ab32Vg1.Finsh
