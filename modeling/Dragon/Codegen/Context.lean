import Dragon.Codegen.Instruction
import Dragon.Symbol.Table
import Mathlib.Data.List.FinRange

/-! The analyzer's context, its register allocator, and the monad its functions run in.

The output file is only appended to, so a step returns the lines it prints and
the context does not hold them.
-/

set_option autoImplicit false

namespace Dragon

structure Reg where
  name : RegName
  which : Nat
  needRestore : Bool
  deriving DecidableEq, Repr

structure RegisterSet where
  overflow : Int
  regsUsed : Fin numRegs → Bool

def regInit : RegisterSet := ⟨6, fun _ => false⟩

structure Acx where
  rs : RegisterSet
  st : Stab
  dispOffset : Int
  toplevel : Bool
  currentFuncType : Subprogs
  retAssigned : Bool
  currentFuncName : Name
  label : Nat

structure Resu where
  type : Index
  reg : Reg
  deriving DecidableEq, Repr

/-- A step of the analyzer: it stops, or returns a value, the context and the printed lines. -/
def Analysis (α : Type) := Acx → Except Stop (α × Acx × List Insn)

namespace Analysis

variable {α β : Type}

def andThen (x : Analysis α) (f : α → Analysis β) : Analysis β := fun acx =>
  match x acx with
  | .error stop => .error stop
  | .ok (a, acx₁, code₁) =>
      match f a acx₁ with
      | .error stop => .error stop
      | .ok (b, acx₂, code₂) => .ok (b, acx₂, code₁ ++ code₂)

instance : Monad Analysis where
  pure a := fun acx => .ok (a, acx, [])
  bind := andThen

theorem pure_eq_ok {a b : α} {acx acx' : Acx} {code : List Insn} :
    (pure a : Analysis α) acx = .ok (b, acx', code) ↔ a = b ∧ acx = acx' ∧ code = [] := by
  change Except.ok (a, acx, []) = _ ↔ _
  simp only [Except.ok.injEq, Prod.mk.injEq, eq_comm (a := ([] : List Insn))]

theorem bind_eq_ok {x : Analysis α} {f : α → Analysis β} {acx acx' : Acx} {b : β}
    {code : List Insn} :
    (x >>= f) acx = .ok (b, acx', code) ↔
      ∃ a acx₁ code₁ code₂, x acx = .ok (a, acx₁, code₁) ∧ f a acx₁ = .ok (b, acx', code₂) ∧
        code = code₁ ++ code₂ := by
  change andThen x f acx = _ ↔ _
  unfold andThen
  constructor
  · intro run
    cases first : x acx with
    | error stop => simp only [first, reduceCtorEq] at run
    | ok result =>
      obtain ⟨a, acx₁, code₁⟩ := result
      simp only [first] at run
      cases second : f a acx₁ with
      | error stop => simp only [second, reduceCtorEq] at run
      | ok result =>
        obtain ⟨b', acx₂, code₂⟩ := result
        simp only [second, Except.ok.injEq, Prod.mk.injEq] at run
        obtain ⟨rfl, rfl, rfl⟩ := run
        exact ⟨a, acx₁, code₁, code₂, rfl, second, rfl⟩
  · rintro ⟨a, acx₁, code₁, code₂, first, second, rfl⟩
    simp only [first, second]

theorem bind_eq_error {x : Analysis α} {f : α → Analysis β} {acx : Acx} {s : Stop} :
    (x >>= f) acx = .error s ↔
      x acx = .error s ∨ ∃ a acx₁ code₁, x acx = .ok (a, acx₁, code₁) ∧ f a acx₁ = .error s := by
  change andThen x f acx = _ ↔ _
  unfold andThen
  cases first : x acx with
  | error stop => simp
  | ok result =>
    obtain ⟨a, acx₁, code₁⟩ := result
    cases second : f a acx₁ with
    | error stop => simp [second]
    | ok result => simp [second]

def get : Analysis Acx := fun acx => .ok (acx, acx, [])

theorem get_bind {f : Acx → Analysis β} {acx : Acx} : (get >>= f) acx = f acx acx := by
  change andThen get f acx = _
  simp only [andThen, get, List.nil_append]
  cases f acx acx <;> rfl

def modify (f : Acx → Acx) : Analysis Unit := fun acx => .ok ((), f acx, [])

def stop (s : Stop) : Analysis α := fun _ => .error s

def spanErr (message : String) : Analysis α := stop (.spanErr message)

def emit (lines : List Insn) : Analysis Unit := fun acx => .ok ((), acx, lines)

def ofExcept (x : Except Stop α) : Analysis α := fun acx =>
  match x with
  | .error s => .error s
  | .ok a => .ok (a, acx, [])

/-- A read through a table index, undefined outside the table. -/
def ofOption : Option α → Analysis α
  | some a => fun acx => .ok (a, acx, [])
  | none => stop .undefined

@[simp] theorem stop_ne_ok {s : Stop} {acx : Acx} {r : α × Acx × List Insn} :
    (stop s : Analysis α) acx = .ok r ↔ False := by
  simp only [stop, reduceCtorEq]

@[simp] theorem spanErr_ne_ok {message : String} {acx : Acx} {r : α × Acx × List Insn} :
    (spanErr message : Analysis α) acx = .ok r ↔ False := by
  simp only [spanErr, stop_ne_ok]

@[simp] theorem emit_eq_ok {lines code : List Insn} {acx acx' : Acx} {u : Unit} :
    emit lines acx = .ok (u, acx', code) ↔ acx = acx' ∧ lines = code := by
  simp only [emit, Except.ok.injEq, Prod.mk.injEq, true_and]

@[simp] theorem modify_eq_ok {f : Acx → Acx} {acx acx' : Acx} {u : Unit} {code : List Insn} :
    modify f acx = .ok (u, acx', code) ↔ f acx = acx' ∧ [] = code := by
  simp only [modify, Except.ok.injEq, Prod.mk.injEq, true_and]

/-! Sequencing after a step that cannot branch. -/

variable {acx acx' : Acx} {b : β} {code : List Insn}

@[simp] theorem pure_bind_eq_ok {a : α} {f : α → Analysis β} :
    ((pure a : Analysis α) >>= f) acx = .ok (b, acx', code) ↔ f a acx = .ok (b, acx', code) := by
  simp [bind_eq_ok, pure_eq_ok]

@[simp] theorem get_bind_eq_ok {f : Acx → Analysis β} :
    (get >>= f) acx = .ok (b, acx', code) ↔ f acx acx = .ok (b, acx', code) := by
  simp [bind_eq_ok, get]

@[simp] theorem modify_bind_eq_ok {g : Acx → Acx} {f : Unit → Analysis β} :
    (modify g >>= f) acx = .ok (b, acx', code) ↔ f () (g acx) = .ok (b, acx', code) := by
  simp [bind_eq_ok, Unique.exists_iff]

@[simp] theorem emit_bind_eq_ok {lines : List Insn} {f : Unit → Analysis β} :
    (emit lines >>= f) acx = .ok (b, acx', code) ↔
      ∃ rest, f () acx = .ok (b, acx', rest) ∧ code = lines ++ rest := by
  simp [bind_eq_ok, Unique.exists_iff]

@[simp] theorem ofExcept_bind_eq_ok {x : Except Stop α} {f : α → Analysis β} :
    (ofExcept x >>= f) acx = .ok (b, acx', code) ↔
      ∃ a, x = .ok a ∧ f a acx = .ok (b, acx', code) := by
  cases x <;> simp [bind_eq_ok, ofExcept]

@[simp] theorem ofOption_bind_eq_ok {x : Option α} {f : α → Analysis β} :
    (ofOption x >>= f) acx = .ok (b, acx', code) ↔
      ∃ a, x = some a ∧ f a acx = .ok (b, acx', code) := by
  cases x with
  | none => simp [bind_eq_ok, ofOption]
  | some a =>
    change (pure a >>= f) acx = _ ↔ _
    simp

end Analysis

open Analysis

namespace RegisterSet

def firstFree (rs : RegisterSet) : Option (Fin numRegs) :=
  (List.finRange numRegs).find? fun i => !rs.regsUsed i

def mark (rs : RegisterSet) (i : Fin numRegs) : RegisterSet :=
  { rs with regsUsed := fun j => if j = i then true else rs.regsUsed j }

def unmark (rs : RegisterSet) (which : Nat) : RegisterSet :=
  { rs with regsUsed := fun j => if j.val = which then false else rs.regsUsed j }

/-- The register reg_gimme hands out. With all of them in use it indexes REGS with the
need_restore flag, and stores the overflow counter in an unsigned char. -/
def gimme (rs : RegisterSet) : Reg × RegisterSet × List Insn :=
  match rs.firstFree with
  | some i => (⟨REGS i, i, false⟩, rs.mark i, [])
  | none =>
      (⟨REGS 1, (rs.overflow.tmod numRegs % 256).toNat, true⟩, { rs with overflow := rs.overflow + 1 },
        [.push (REGS 1)])

def takeitback (rs : RegisterSet) (reg : Reg) : RegisterSet × List Insn :=
  if reg.needRestore = false then (rs.unmark reg.which, [])
  else ({ rs with overflow := rs.overflow - 1 }, [.pop reg.name])

/-- The registers save_registers pushes, in its order. -/
def saved (rs : RegisterSet) : List (Fin numRegs) :=
  ((List.finRange numRegs).take 6).filter fun i => rs.regsUsed i

/-- The registers restore_registers_except pops, in its order. -/
def restored (rs : RegisterSet) (r : Reg) : List (Fin numRegs) :=
  ((List.finRange numRegs).take 6).reverse.filter fun i => rs.regsUsed i && i.val != r.which

theorem takeitback_gimme (rs : RegisterSet) :
    (rs.gimme.2.1.takeitback rs.gimme.1).1 = rs := by
  unfold gimme
  cases free : rs.firstFree with
  | none =>
    cases rs
    simp only [takeitback, Bool.true_eq_false, if_false, RegisterSet.mk.injEq, and_true]
    omega
  | some i =>
    have unused : rs.regsUsed i = false := by
      simpa using List.find?_some free
    simp only [takeitback, if_true, unmark, mark]
    cases rs with
    | mk overflow regsUsed =>
      simp only [RegisterSet.mk.injEq, true_and]
      funext j
      by_cases same : j = i
      · subst same
        simpa using unused.symm
      · simp [same, Fin.val_ne_of_ne same]

end RegisterSet

namespace Acx

def setRs (acx : Acx) (rs : RegisterSet) : Acx := { acx with rs := rs }
def setSt (acx : Acx) (st : Stab) : Acx := { acx with st := st }

end Acx

def regGimme : Analysis Reg := fun acx =>
  let (reg, rs, lines) := acx.rs.gimme
  .ok (reg, acx.setRs rs, lines)

def regTakeitback (reg : Reg) : Analysis Unit := fun acx =>
  let (rs, lines) := acx.rs.takeitback reg
  .ok ((), acx.setRs rs, lines)

def saveRegisters : Analysis Unit := fun acx =>
  .ok ((), acx, acx.rs.saved.map fun i => .push (REGS i))

def restoreRegistersExcept (r : Reg) : Analysis Unit := fun acx =>
  .ok ((), acx, (acx.rs.restored r).map fun i => .pop (REGS i))

/-- A call of a symbol table function that updates the table. -/
def withStab {α : Type} (f : Stab → Except Stop (α × Stab)) : Analysis α := fun acx =>
  match f acx.st with
  | .error s => .error s
  | .ok (a, st) => .ok (a, acx.setSt st, [])

def nextLabel : Analysis Nat := fun acx => .ok (acx.label, { acx with label := acx.label + 1 }, [])

namespace Analysis

variable {α β : Type} {acx acx' : Acx} {b : β} {code : List Insn}

@[simp] theorem regGimme_bind_eq_ok {f : Reg → Analysis β} :
    (regGimme >>= f) acx = .ok (b, acx', code) ↔
      ∃ rest, f acx.rs.gimme.1 (acx.setRs acx.rs.gimme.2.1) = .ok (b, acx', rest) ∧
        code = acx.rs.gimme.2.2 ++ rest := by
  simp [bind_eq_ok, regGimme]

@[simp] theorem regTakeitback_bind_eq_ok {reg : Reg} {f : Unit → Analysis β} :
    (regTakeitback reg >>= f) acx = .ok (b, acx', code) ↔
      ∃ rest, f () (acx.setRs (acx.rs.takeitback reg).1) = .ok (b, acx', rest) ∧
        code = (acx.rs.takeitback reg).2 ++ rest := by
  simp [bind_eq_ok, regTakeitback, Unique.exists_iff]

@[simp] theorem regTakeitback_eq_ok {reg : Reg} {u : Unit} :
    regTakeitback reg acx = .ok (u, acx', code) ↔
      acx.setRs (acx.rs.takeitback reg).1 = acx' ∧ (acx.rs.takeitback reg).2 = code := by
  simp [regTakeitback]

@[simp] theorem saveRegisters_bind_eq_ok {f : Unit → Analysis β} :
    (saveRegisters >>= f) acx = .ok (b, acx', code) ↔
      ∃ rest, f () acx = .ok (b, acx', rest) ∧
        code = (acx.rs.saved.map fun i => .push (REGS i)) ++ rest := by
  simp [bind_eq_ok, saveRegisters, Unique.exists_iff]

@[simp] theorem restoreRegistersExcept_bind_eq_ok {reg : Reg} {f : Unit → Analysis β} :
    (restoreRegistersExcept reg >>= f) acx = .ok (b, acx', code) ↔
      ∃ rest, f () acx = .ok (b, acx', rest) ∧
        code = ((acx.rs.restored reg).map fun i => .pop (REGS i)) ++ rest := by
  simp [bind_eq_ok, restoreRegistersExcept, Unique.exists_iff]

@[simp] theorem nextLabel_bind_eq_ok {f : Nat → Analysis β} :
    (nextLabel >>= f) acx = .ok (b, acx', code) ↔
      f acx.label { acx with label := acx.label + 1 } = .ok (b, acx', code) := by
  simp [bind_eq_ok, nextLabel]

theorem withStab_eq_ok {g : Stab → Except Stop (α × Stab)} {a : α} :
    withStab g acx = .ok (a, acx', code) ↔
      ∃ st, g acx.st = .ok (a, st) ∧ acx' = acx.setSt st ∧ code = [] := by
  unfold withStab
  cases result : g acx.st with
  | error s => simp
  | ok r =>
    obtain ⟨a', st⟩ := r
    simp only [Except.ok.injEq, Prod.mk.injEq]
    constructor
    · rintro ⟨rfl, rfl, rfl⟩
      exact ⟨st, ⟨rfl, rfl⟩, rfl, rfl⟩
    · rintro ⟨st', ⟨rfl, rfl⟩, rfl, rfl⟩
      exact ⟨rfl, rfl, rfl⟩

@[simp] theorem withStab_bind_eq_ok {g : Stab → Except Stop (α × Stab)} {f : α → Analysis β} :
    (withStab g >>= f) acx = .ok (b, acx', code) ↔
      ∃ a st, g acx.st = .ok (a, st) ∧ f a (acx.setSt st) = .ok (b, acx', code) := by
  simp only [bind_eq_ok, withStab_eq_ok]
  constructor
  · rintro ⟨a, _, _, _, ⟨st, found, rfl, rfl⟩, run, rfl⟩
    exact ⟨a, st, found, run⟩
  · rintro ⟨a, st, found, run⟩
    exact ⟨a, _, [], code, ⟨st, found, rfl, rfl⟩, run, rfl⟩

end Analysis

end Dragon
