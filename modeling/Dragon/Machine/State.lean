import Dragon.Codegen.Instruction
import Dragon.Library.Memory

/-! The x86-64 state the output runs in, and the instructions that do not jump.

Flags are kept as the two facts the output tests: equality (ZF) and signed less
(SF ≠ OF). An instruction that leaves them undefined erases them. A line that is
no valid instruction has no successor.
-/

set_option autoImplicit false

namespace Dragon

open ByteMemory

structure Flags where
  zf : Bool
  lt : Bool
  deriving DecidableEq, Repr

structure State where
  reg : RegName → BitVec 64
  mem : Memory
  flags : Option Flags

/-- What the output takes from outside: the address of display@ and the effect of a call,
from the call instruction to the return. -/
structure Env where
  display : BitVec 64
  call : Name → State → Option State

def zeroState : State := ⟨fun _ => 0, fun _ => 0, none⟩

/-- Every register has a value of its own. -/
def busyState : State where
  reg
    | .rax => 1 | .rbx => 2 | .rcx => 3 | .rdx => 4 | .rsi => 5 | .rdi => 6
    | .rbp => 0x7fff0040 | .rsp => 0x7fff0000
    | .r8 => 8 | .r9 => 9 | .r10 => 10 | .r11 => 11 | .r12 => 12 | .r13 => 13 | .r14 => 14 | .r15 => 15
    | .blank => 0
  mem := fun _ => 0
  flags := none

def noCalls : Env := ⟨0, fun _ _ => none⟩

namespace State

def setReg (σ : State) (r : RegName) (v : BitVec 64) : State :=
  { σ with reg := fun x => if x = r then v else σ.reg x }

def setMem (σ : State) (m : Memory) : State := { σ with mem := m }

def setFlags (σ : State) (f : Option Flags) : State := { σ with flags := f }

@[simp] theorem setReg_reg_self (σ : State) (r : RegName) (v : BitVec 64) :
    (σ.setReg r v).reg r = v := by simp [setReg]

theorem setReg_reg_of_ne (σ : State) {r s : RegName} (v : BitVec 64) (ne : s ≠ r) :
    (σ.setReg r v).reg s = σ.reg s := by simp [setReg, ne]

@[simp] theorem setReg_mem (σ : State) (r : RegName) (v : BitVec 64) :
    (σ.setReg r v).mem = σ.mem := rfl
@[simp] theorem setReg_flags (σ : State) (r : RegName) (v : BitVec 64) :
    (σ.setReg r v).flags = σ.flags := rfl
@[simp] theorem setMem_reg (σ : State) (m : Memory) : (σ.setMem m).reg = σ.reg := rfl
@[simp] theorem setMem_mem (σ : State) (m : Memory) : (σ.setMem m).mem = m := rfl
@[simp] theorem setMem_flags (σ : State) (m : Memory) : (σ.setMem m).flags = σ.flags := rfl
@[simp] theorem setFlags_reg (σ : State) (f : Option Flags) : (σ.setFlags f).reg = σ.reg := rfl
@[simp] theorem setFlags_mem (σ : State) (f : Option Flags) : (σ.setFlags f).mem = σ.mem := rfl
@[simp] theorem setFlags_flags (σ : State) (f : Option Flags) : (σ.setFlags f).flags = f := rfl

def push (σ : State) (v : BitVec 64) : State :=
  (σ.setReg .rsp (below (σ.reg .rsp) 0)).setMem (writeWord σ.mem (below (σ.reg .rsp) 0) v)

def pop (σ : State) (r : RegName) : State :=
  (σ.setReg .rsp (σ.reg .rsp + 8)).setReg r (readWord σ.mem (σ.reg .rsp))

def frame (σ : State) (off : Int) : BitVec 64 := σ.reg .rbp + BitVec.ofInt 64 off

end State

namespace RegName

def ofLowByte (byte : List Char) : Option RegName :=
  if byte = ['a', 'l'] then some .rax
  else if byte = ['b', 'l'] then some .rbx
  else if byte = ['c', 'l'] then some .rcx
  else if byte = ['d', 'l'] then some .rdx
  else none

end RegName

/-- The value left by an operation, if it writes one, and the flags. -/
def Alu.eval (op : Alu) (a b : BitVec 64) : Option (BitVec 64) × Option Flags :=
  match op with
  | .add => (some (a + b), some ⟨decide (a + b = 0), decide (a.toInt + b.toInt < 0)⟩)
  | .sub => (some (a - b), some ⟨decide (a = b), a.slt b⟩)
  | .cmp => (none, some ⟨decide (a = b), a.slt b⟩)
  | .imul => (some (a * b), none)
  | .and => (some (a &&& b), some ⟨decide (a &&& b = 0), (a &&& b).msb⟩)
  | .or => (some (a ||| b), some ⟨decide (a ||| b = 0), (a ||| b).msb⟩)
  | .xor => (some (a ^^^ b), some ⟨decide (a ^^^ b = 0), (a ^^^ b).msb⟩)

namespace State

def alu (σ : State) (op : Alu) (dst : RegName) (b : BitVec 64) : State :=
  (((op.eval (σ.reg dst) b).1.map (σ.setReg dst)).getD σ).setFlags (op.eval (σ.reg dst) b).2

/-- idiv: the signed quotient and remainder of rdx:rax, with a fault when there is none. -/
def idiv (σ : State) (divisor : BitVec 64) : Option State :=
  let dividend := (σ.reg .rdx).toInt * 2 ^ 64 + (σ.reg .rax).toNat
  let q := dividend.tdiv divisor.toInt
  if divisor = 0 ∨ q < -2 ^ 63 ∨ 2 ^ 63 ≤ q then none
  else some (((σ.setReg .rax (BitVec.ofInt 64 q)).setReg .rdx
    (BitVec.ofInt 64 (dividend.tmod divisor.toInt))).setFlags none)

theorem alu_reg_self {σ : State} {op : Alu} {dst : RegName} {b w : BitVec 64}
    (writes : (op.eval (σ.reg dst) b).1 = some w) : (σ.alu op dst b).reg dst = w := by
  simp [alu, writes]

theorem alu_reg_of_ne (σ : State) (op : Alu) {dst r : RegName} (b : BitVec 64) (ne : r ≠ dst) :
    (σ.alu op dst b).reg r = σ.reg r := by
  unfold alu
  cases (op.eval (σ.reg dst) b).1 with
  | none => rfl
  | some w => exact setReg_reg_of_ne σ w ne

@[simp] theorem alu_mem (σ : State) (op : Alu) (dst : RegName) (b : BitVec 64) :
    (σ.alu op dst b).mem = σ.mem := by
  unfold alu
  cases (op.eval (σ.reg dst) b).1 with
  | none => rfl
  | some w => rfl

@[simp] theorem alu_flags (σ : State) (op : Alu) (dst : RegName) (b : BitVec 64) :
    (σ.alu op dst b).flags = (op.eval (σ.reg dst) b).2 := rfl

end State

def Cond.holds (cc : Cond) (f : Flags) : Bool :=
  match cc with
  | .e => f.zf
  | .ne => !f.zf
  | .l => f.lt
  | .g => !f.lt && !f.zf
  | .le => f.lt || f.zf
  | .ge => !f.lt

namespace Insn

def operands : Insn → List RegName
  | push r | pop r | not r | inc r | idiv r => [r]
  | mov dst src | alu _ dst src | load dst src _ | store dst src => [dst, src]
  | movLit dst _ | movImm dst _ | loadDisplay dst _ | storeDisplay _ dst | lea dst _
  | addImm dst _ | subImm dst _ | cmpImm dst _ | movzx dst _ => [dst]
  | _ => []

end Insn

/-- One line that neither jumps nor returns, with its registers already known to be named. -/
def execNamed (env : Env) (i : Insn) (σ : State) : Option State :=
  match i with
  | .comment _ | .externSub _ | .section _ | .reserve _ | .global _ | .label _ | .blank => some σ
  | .push r => some (σ.push (σ.reg r))
  | .pop r => some (σ.pop r)
  | .pushDisplay d => some (σ.push (readWord σ.mem (env.display + BitVec.ofInt 64 d)))
  | .mov dst src => some (σ.setReg dst (σ.reg src))
  | .movLit dst lit => (decimal lit).map fun n => σ.setReg dst (BitVec.ofNat 64 n)
  | .movImm dst k => some (σ.setReg dst (BitVec.ofInt 64 k))
  | .load dst base disp => some (σ.setReg dst (readWord σ.mem (σ.reg base + BitVec.ofInt 64 disp)))
  | .store base src => some (σ.setMem (writeWord σ.mem (σ.reg base) (σ.reg src)))
  | .loadDisplay dst d => some (σ.setReg dst (readWord σ.mem (env.display + BitVec.ofInt 64 d)))
  | .storeDisplay d src =>
      some (σ.setMem (writeWord σ.mem (env.display + BitVec.ofInt 64 d) (σ.reg src)))
  -- the intended effect: the operand rbp+off is not one the assembler accepts
  | .storeDisplayFrame d off =>
      some (σ.setMem (writeWord σ.mem (env.display + BitVec.ofInt 64 d) (σ.frame off)))
  | .lea dst off => some (σ.setReg dst (σ.frame off))
  | .alu op dst src => some (σ.alu op dst (σ.reg src))
  | .addImm dst k => some (σ.alu .add dst (BitVec.ofInt 64 k))
  | .subImm dst k => some (σ.alu .sub dst (BitVec.ofInt 64 k))
  | .cmpImm r k => some (σ.alu .cmp r (BitVec.ofInt 64 k))
  | .not r => some (σ.setReg r (~~~ σ.reg r))
  | .inc r => some (σ.alu .add r 1)
  | .cdq =>
      -- writing edx clears the high half of rdx
      some (σ.setReg .rdx (if ((σ.reg .rax).setWidth 32).msb then 0xffffffff#64 else 0))
  | .idiv r => σ.idiv (σ.reg r)
  | .set cc byte => do
      let r ← RegName.ofLowByte byte
      let f ← σ.flags
      some (σ.setReg r ((σ.reg r).extractLsb' 8 56 ++ BitVec.ofNat 8 (cc.holds f).toNat))
  | .movzx dst byte => do
      let r ← RegName.ofLowByte byte
      some (σ.setReg dst (((σ.reg r).setWidth 8).setWidth 64))
  | .call f => env.call f σ
  | .jmp _ | .jcc .. | .ret | .syscall => none

/-- A line that names the blank register is not an instruction. -/
def exec (env : Env) (i : Insn) (σ : State) : Option State :=
  if RegName.blank ∈ i.operands then none else execNamed env i σ

theorem exec_of_named {env : Env} {i : Insn} {σ : State} (named : RegName.blank ∉ i.operands) :
    exec env i σ = execNamed env i σ := if_neg named

def runBlock (env : Env) : List Insn → State → Option State
  | [], σ => some σ
  | i :: code, σ => (exec env i σ).bind (runBlock env code)

@[simp] theorem runBlock_nil (env : Env) (σ : State) : runBlock env [] σ = some σ := rfl

theorem runBlock_cons (env : Env) (i : Insn) (code : List Insn) (σ : State) :
    runBlock env (i :: code) σ = (exec env i σ).bind (runBlock env code) := rfl

theorem runBlock_one {env : Env} {i : Insn} {σ τ : State} (next : exec env i σ = some τ) :
    runBlock env [i] σ = some τ := by
  rw [runBlock_cons, next]
  rfl

theorem runBlock_cons_some {env : Env} {i : Insn} {code : List Insn} {σ τ υ : State}
    (next : exec env i σ = some τ) (rest : runBlock env code τ = some υ) :
    runBlock env (i :: code) σ = some υ := by
  rw [runBlock_cons, next]
  exact rest

theorem runBlock_append (env : Env) (first second : List Insn) (σ : State) :
    runBlock env (first ++ second) σ = (runBlock env first σ).bind (runBlock env second) := by
  induction first generalizing σ with
  | nil => rfl
  | cons i first ih =>
    rw [List.cons_append, runBlock_cons, runBlock_cons]
    cases exec env i σ with
    | none => rfl
    | some τ => exact ih τ

theorem runBlock_append_some {env : Env} {first second : List Insn} {σ τ υ : State}
    (one : runBlock env first σ = some τ) (two : runBlock env second τ = some υ) :
    runBlock env (first ++ second) σ = some υ := by
  rw [runBlock_append, one]
  exact two

end Dragon
