import Dragon.Codegen.Registers
import Dragon.Machine.State

/-! Reading and writing an lvalue.

The rvalue code of a path and of an indexed path is the lvalue code and one more
load. EXPR_DEREF prints the same lines for both.
-/

set_option autoImplicit false

namespace Dragon

open Analysis ByteMemory

theorem Run.named {node : Node} {acx acx' : Acx} {results : List Resu} {code : List Insn}
    (run : Run node acx results acx' code) :
    ∀ r ∈ results, r.type = integerTypeIdx → r.reg.name ≠ .blank := by
  induction run with
  | lit | path _ | deref _ _ _ | call _ _ _ _ _ =>
    rw [List.forall_mem_singleton]
    exact fun _ => gimme_ne_blank _
  | idx _ _ _ _ integer ih =>
    rw [List.forall_mem_singleton] at ih ⊢
    exact fun _ => ih integer
  | bin _ _ _ _ ih _ =>
    rw [List.forall_mem_singleton] at ih ⊢
    intro integer
    apply ih
    split at integer
    · cases integer
    · exact integer
  | un _ _ boolean _ =>
    rw [List.forall_mem_singleton, boolean]
    exact fun integer => by cases integer
  | app _ ih => exact ih
  | magic _ _ _ _ =>
    rw [List.forall_mem_singleton]
    exact fun integer => by cases integer
  | noActuals | wrote | read_ => exact fun r member => absurd member List.not_mem_nil
  | actual _ _ _ _ ih₁ ih₂ | write _ _ _ ih₁ ih₂ | read _ _ _ _ ih₁ ih₂ =>
    rw [List.forall_mem_singleton] at ih₁
    exact List.forall_mem_cons.mpr ⟨ih₁, ih₂⟩

/-- Where the code of the address leaves p, the code of the value leaves the word at p, and the
types are the same. -/
def ReadsBack (e : AstExpr) (acx : Acx) (env : Env) (σ : State) : Prop :=
  ∀ r acx' code τ, analyzeExpr e false acx = .ok (r, acx', code) → runBlock env code σ = some τ →
    ∃ r' acx'' code' τ', analyzeExpr e true acx = .ok (r', acx'', code') ∧ r'.type = r.type ∧
      runBlock env code' σ = some τ' ∧ τ'.reg r'.reg.name = readWord τ.mem (τ.reg r.reg.name)

/-- The word that the pointer at a path points to is the pointer. -/
def PointsToItself (p : AstPath) (acx : Acx) (env : Env) (σ : State) : Prop :=
  ∀ r acx' code τ, typeOfPath p false acx = .ok (r, acx', code) → runBlock env code σ = some τ →
    readWord τ.mem (readWord τ.mem (τ.reg r.reg.name)) = readWord τ.mem (τ.reg r.reg.name)

theorem runBlock_load (env : Env) {r : RegName} (named : r ≠ .blank) (σ : State) :
    runBlock env [.load r r 0] σ = some (σ.setReg r (readWord σ.mem (σ.reg r))) := by
  apply runBlock_one
  rw [exec_of_named (by simp [Insn.operands, named.symm]), execNamed]
  rw [show BitVec.ofInt 64 0 = 0#64 from rfl, BitVec.add_zero]

theorem typeOfPath_rvalue {p : AstPath} {acx acx' : Acx} {r : Resu} {code : List Insn}
    (run : typeOfPath p false acx = .ok (r, acx', code)) :
    typeOfPath p true acx = .ok (r, acx', code ++ [.load r.reg.name r.reg.name 0]) := by
  simp only [typeOfPath, get_bind_eq_ok] at run ⊢
  split at run
  next => simp at run
  next resolved =>
    rw [if_neg resolved]
    simp only [regGimme_bind_eq_ok] at run ⊢
    obtain ⟨rest, run, rfl⟩ := run
    rw [bind_eq_ok] at run
    obtain ⟨v, acx₁, code₁, code₂, address, run, rfl⟩ := run
    rw [ofOption_bind_eq_ok] at run
    obtain ⟨t, found, run⟩ := run
    rw [bind_eq_ok] at run
    obtain ⟨u, acx₂, code₃, code₄, fields, run, rfl⟩ := run
    simp only [Bool.false_eq_true, if_false, emit_bind_eq_ok, pure_eq_ok] at run
    obtain ⟨_, ⟨rfl, rfl, rfl⟩, rfl⟩ := run
    refine ⟨code₁ ++ (code₃ ++ [.load acx.rs.gimme.1.name acx.rs.gimme.1.name 0]), ?_, by simp⟩
    rw [bind_eq_ok]
    refine ⟨v, acx₁, code₁, _, address, ?_, rfl⟩
    rw [ofOption_bind_eq_ok]
    refine ⟨t, found, ?_⟩
    rw [bind_eq_ok]
    refine ⟨u, acx₂, code₃, _, fields, ?_, rfl⟩
    simp [pure_eq_ok]

theorem analyzeExpr_rvalue {e : AstExpr} {acx acx' : Acx} {r : Resu} {code : List Insn}
    (lvalue : isLvalue e = true) (plain : ∀ p, e ≠ .deref (.path p))
    (accepted : analyzeExpr e false acx = .ok (r, acx', code)) :
    analyzeExpr e true acx = .ok (r, acx', code ++ [.load r.reg.name r.reg.name 0]) ∧
      r.reg.name ≠ .blank := by
  have run := analyzeExpr_run _ accepted
  cases run with
  | path path =>
    simp only [analyzeExpr] at accepted ⊢
    exact ⟨typeOfPath_rvalue accepted, gimme_ne_blank _⟩
  | deref => exact absurd rfl (plain _)
  | idx path found array index integer =>
    have asValue : Run (.expr (.idx _ _) true) _ _ _ _ := .idx path found array index integer
    have again := asValue.expr_accepted
    simp only [if_true] at again
    simp only [Bool.false_eq_true, if_false, List.append_nil, List.append_assoc] at again ⊢
    exact ⟨again, index.named _ List.mem_cons_self integer⟩
  | lit | bin | un | app => cases lvalue

theorem analyzeExpr_deref {p : AstPath} {rv : Bool} {acx acx' : Acx} {r : Resu} {code : List Insn}
    (accepted : analyzeExpr (.deref (.path p)) rv acx = .ok (r, acx', code)) :
    ∃ t path, typeOfPath p false acx = .ok (⟨t, r.reg⟩, acx', path) ∧ r.reg.name ≠ .blank ∧
      code = path ++ [.load r.reg.name r.reg.name 0] := by
  have run := analyzeExpr_run _ accepted
  cases run with
  | deref path found pointer =>
    have printed := path.again acx.rs
    rw [Acx.setRs_self] at printed
    exact ⟨_, _, printed, gimme_ne_blank _, rfl⟩

theorem readsBack_deref_iff {p : AstPath} {acx acx' : Acx} {env : Env} {σ : State} {r : Resu}
    {code : List Insn} (accepted : analyzeExpr (.deref (.path p)) false acx = .ok (r, acx', code)) :
    ReadsBack (.deref (.path p)) acx env σ ↔ PointsToItself p acx env σ := by
  obtain ⟨t, path, printed, named, rfl⟩ := analyzeExpr_deref accepted
  have flagless : analyzeExpr (.deref (.path p)) true acx = analyzeExpr (.deref (.path p)) false acx := by
    simp only [analyzeExpr]
  constructor
  · intro reads r₁ acx₁ code₁ τ printed₁ ran
    cases printed.symm.trans printed₁
    have whole := runBlock_append_some ran (runBlock_load env named τ)
    obtain ⟨r', acx'', code', τ', accepted', -, ran', value⟩ := reads _ _ _ _ accepted whole
    cases accepted.symm.trans (flagless.symm.trans accepted')
    cases whole.symm.trans ran'
    rw [State.setReg_reg_self, State.setReg_mem] at value
    exact value.symm
  · intro loops r₁ acx₁ code₁ τ accepted₁ ran
    cases accepted.symm.trans accepted₁
    have whole := ran
    rw [runBlock_append, Option.bind_eq_some_iff] at ran
    obtain ⟨τ₀, first, last⟩ := ran
    rw [runBlock_load env named] at last
    cases last
    refine ⟨_, _, _, _, flagless.trans accepted, rfl, whole, ?_⟩
    rw [State.setReg_reg_self, State.setReg_mem]
    exact (loops _ _ _ _ printed first).symm

/-- The value is the word at the address, but for a dereference: its value is its address, so
the pointer must point to itself. -/
theorem readsBack_iff (e : AstExpr) (acx : Acx) (env : Env) (σ : State) (r : Resu) (acx' : Acx)
    (code : List Insn) (lvalue : isLvalue e = true)
    (accepted : analyzeExpr e false acx = .ok (r, acx', code)) :
    ReadsBack e acx env σ ↔ ∀ p, e = .deref (.path p) → PointsToItself p acx env σ := by
  by_cases deref : ∃ p, e = .deref (.path p)
  · obtain ⟨p, rfl⟩ := deref
    rw [readsBack_deref_iff accepted]
    constructor
    · intro loops q same
      cases same
      exact loops
    · exact fun loops => loops p rfl
  · rw [not_exists] at deref
    obtain ⟨again, named⟩ := analyzeExpr_rvalue lvalue deref accepted
    apply iff_of_true
    · intro r₁ acx₁ code₁ τ accepted₁ ran
      cases accepted.symm.trans accepted₁
      exact ⟨_, _, _, _, again, rfl, runBlock_append_some ran (runBlock_load env named τ),
        State.setReg_reg_self ..⟩
    · exact fun p same => absurd same (deref p)

-- The main program of var p: ^integer, after its declarations.
def pointerAcx : Acx :=
  { initialAcx with st := (((stabNew.pushType ⟨.pointer integerTypeIdx, 8, none⟩).2.pushVar
      ⟨6, "p", -1, 0, false⟩).2.insertVar "p" 0) }

theorem path_readsBack : ReadsBack (.path (astPath "p")) pointerAcx noCalls zeroState := by
  have accepted : (analyzeExpr (.path (astPath "p")) false pointerAcx).toOption.isSome = true := by
    decide +kernel
  obtain ⟨⟨r, acx', code⟩, result⟩ := exists_ok_of_isSome accepted
  apply (readsBack_iff (.path (astPath "p")) pointerAcx noCalls zeroState r acx' code rfl result).mpr
  exact fun p same => by cases same

-- p points to the word 0 at 16.
def awayState : State := { zeroState with mem := writeWord zeroState.mem 0 16 }

theorem not_forall_readsBack : ¬ ∀ e acx env σ r acx' code, isLvalue e = true →
    analyzeExpr e false acx = .ok (r, acx', code) → ReadsBack e acx env σ := by
  intro always
  have accepted : (analyzeExpr (.deref (.path (astPath "p"))) false pointerAcx).toOption.map
      (fun run => (run.1.reg.name, run.2.2)) = some (.rbx, [.lea .rbx 0, .load .rbx .rbx 0]) := by
    decide +kernel
  cases result : analyzeExpr (.deref (.path (astPath "p"))) false pointerAcx with
  | error s =>
    rw [result] at accepted
    cases accepted
  | ok run =>
    obtain ⟨r, acx', code⟩ := run
    have reads := always _ _ noCalls awayState _ _ _ rfl result
    obtain ⟨t, path, printed, named, whole⟩ := analyzeExpr_deref result
    rw [result] at accepted
    simp only [Except.toOption, Option.map_some, Option.some.injEq, Prod.mk.injEq] at accepted
    obtain ⟨register, rfl⟩ := accepted
    rw [register] at whole
    obtain rfl : [.lea .rbx 0] = path := List.append_cancel_right whole
    have loops := (readsBack_deref_iff result).mp reads _ _ _ _ printed rfl
    rw [register] at loops
    revert loops
    decide +kernel

end Dragon
