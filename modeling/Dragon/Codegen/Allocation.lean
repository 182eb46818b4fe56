import Dragon.Codegen.Registers

/-! Register allocation, read off the syntax tree.

Where the value of an expression goes and which registers are in use after it
depend on the registers in use before, and on which calls are magic. Nothing else
the analyzer knows has a part in it.
-/

set_option autoImplicit false

namespace Dragon

namespace RegisterSet

def take (rs : RegisterSet) : Reg × RegisterSet := (rs.gimme.1, rs.gimme.2.1)

def release (taken : Reg × RegisterSet) : RegisterSet := (taken.2.takeitback taken.1).1

end RegisterSet

open RegisterSet

namespace AstExpr

mutual

/-- The register of the value of an expression, and the registers in use after it. -/
def alloc (magic : AstPath → Bool) : AstExpr → RegisterSet → Reg × RegisterSet
  | .app p args, rs =>
      if magic p then (magicResu.reg, allocMagic magic args rs) else (allocActuals magic args rs).take
  | .bin _ left right, rs =>
      ((left.alloc magic rs).1, release (right.alloc magic (left.alloc magic rs).2))
  | .deref target, rs => target.alloc magic rs
  | .idx _ index, rs => index.alloc magic rs.take.2
  | .lit _, rs => rs.take
  | .path _, rs => rs.take
  | .un _ operand, rs => operand.alloc magic rs
  | .addrof target, rs => target.alloc magic rs

/-- The registers of actuals are not given back. -/
def allocActuals (magic : AstPath → Bool) : List AstExpr → RegisterSet → RegisterSet
  | [], rs => rs
  | e :: args, rs => allocActuals magic args (e.alloc magic rs).2

def allocMagic (magic : AstPath → Bool) : List AstExpr → RegisterSet → RegisterSet
  | [], rs => rs
  | e :: args, rs => allocMagic magic args (release (e.alloc magic rs))

end

end AstExpr

namespace AstStmt

mutual

def alloc (magic : AstPath → Bool) : AstStmt → RegisterSet → RegisterSet
  | .null, rs => rs
  | .assign lvalue rvalue, rs =>
      release ((lvalue.alloc magic rs).1,
        release (rvalue.alloc magic (lvalue.alloc magic rs).2))
  | .foor _ start finish body, rs =>
      let sty := start.alloc magic rs
      let ety := finish.alloc magic sty.2
      release (sty.1, release (ety.1, body.alloc magic ety.2.take.2))
  | .ite cond thenn elze, rs =>
      elze.alloc magic (thenn.alloc magic (release (cond.alloc magic rs)))
  | .proc p args, rs => release ((AstExpr.app p args).alloc magic rs)
  | .stmts body, rs => allocAll magic body rs
  | .wdo cond body, rs => body.alloc magic (release (cond.alloc magic rs))

def allocAll (magic : AstPath → Bool) : List AstStmt → RegisterSet → RegisterSet
  | [], rs => rs
  | s :: body, rs => allocAll magic body (s.alloc magic rs)

end

end AstStmt

/-! ## The analyzer allocates so -/

/-- A node goes from one register set to another, with the register of its result. -/
def Node.Allocates (node : Node) (magic : AstPath → Bool) (rs rs' : RegisterSet)
    (results : List Resu) : Prop :=
  match node with
  | .expr e _ => ∃ t, results = [⟨t, (e.alloc magic rs).1⟩] ∧ rs' = (e.alloc magic rs).2
  | .call p args => ∃ t, results = [⟨t, ((AstExpr.app p args).alloc magic rs).1⟩] ∧
      rs' = ((AstExpr.app p args).alloc magic rs).2
  | .actuals args _ => rs' = AstExpr.allocActuals magic args rs
  | .writes args | .reads _ args => rs' = AstExpr.allocMagic magic args rs

theorem Run.allocates {node : Node} {acx acx' : Acx} {results : List Resu} {code : List Insn}
    (run : Run node acx results acx' code) {magic : AstPath → Bool}
    (calls : ∀ p, isMagic acx.st p = magic p) : node.Allocates magic acx.rs acx'.rs results := by
  induction run with
  | lit => exact ⟨_, rfl, rfl⟩
  | path => exact ⟨_, rfl, rfl⟩
  | deref => exact ⟨_, rfl, rfl⟩
  | idx path _ _ _ _ ih =>
    obtain ⟨t, same, rs⟩ := ih fun p => (isMagic_congr path.scopes path.types p).trans (calls p)
    obtain rfl := List.singleton_inj.mp same
    exact ⟨_, rfl, rs⟩
  | bin first _ _ _ ih₁ ih₂ =>
    obtain ⟨t₁, one, rs₁⟩ := ih₁ calls
    obtain ⟨t₂, two, rs₂⟩ := ih₂
      fun p => (isMagic_congr first.scopes first.types p).trans (calls p)
    obtain rfl := List.singleton_inj.mp one
    obtain rfl := List.singleton_inj.mp two
    refine ⟨_, rfl, ?_⟩
    rw [Acx.setRs_rs, rs₂, rs₁]
    rfl
  | un _ _ _ ih => exact ih calls
  | app _ ih => exact ih calls
  | @magic p args pt which acx acx₁ _ _ callee magic' _ ih =>
    have here := (calls p).symm.trans (isMagic_of_magic callee magic')
    have rs : acx₁.rs = AstExpr.allocMagic magic args acx.rs := by
      have inner := ih calls
      cases which <;> exact inner
    refine ⟨voidTypeIdx, ?_, ?_⟩
    · rw [AstExpr.alloc, if_pos here]
      rfl
    · rw [AstExpr.alloc, if_pos here]
      exact rs
  | @call p args _ _ _ retty acx acx₁ _ _ callee magic' _ _ ih =>
    have here : ¬ magic p = true := by
      rw [← calls, isMagic_of_none callee magic']
      decide
    have rs : acx₁.rs = AstExpr.allocActuals magic args acx.rs := ih calls
    refine ⟨retty, ?_, ?_⟩
    · rw [AstExpr.alloc, if_neg here, rs]
      rfl
    · rw [AstExpr.alloc, if_neg here, Acx.setRs_rs, rs]
      rfl
  | noActuals => rfl
  | actual value _ _ _ ih₁ ih₂ =>
    obtain ⟨t, -, rs⟩ := ih₁ calls
    have rest := ih₂ fun p => (isMagic_congr value.scopes value.types p).trans (calls p)
    rw [rs] at rest
    exact rest
  | wrote => rfl
  | write value _ _ ih₁ ih₂ =>
    obtain ⟨t, same, rs⟩ := ih₁ calls
    obtain rfl := List.singleton_inj.mp same
    have rest := ih₂ fun p => (isMagic_congr value.scopes value.types p).trans (calls p)
    rw [Acx.setRs_rs, rs] at rest
    exact rest
  | read_ => rfl
  | read _ value _ _ ih₁ ih₂ =>
    obtain ⟨t, same, rs⟩ := ih₁ calls
    obtain rfl := List.singleton_inj.mp same
    have rest := ih₂ fun p => (isMagic_congr value.scopes value.types p).trans (calls p)
    rw [Acx.setRs_rs, rs] at rest
    exact rest

theorem Run.alloc {e : AstExpr} {rv : Bool} {acx acx' : Acx} {r : Resu} {code : List Insn}
    (run : Run (.expr e rv) acx [r] acx' code) {magic : AstPath → Bool}
    (calls : ∀ p, isMagic acx.st p = magic p) : (r.reg, acx'.rs) = e.alloc magic acx.rs := by
  obtain ⟨t, same, rs⟩ := run.allocates calls
  obtain rfl := List.singleton_inj.mp same
  rw [rs]

def StmtNode.alloc (node : StmtNode) (magic : AstPath → Bool) (rs : RegisterSet) : RegisterSet :=
  match node with
  | .stmt s => s.alloc magic rs
  | .stmts body => AstStmt.allocAll magic body rs

theorem StmtRun.alloc {node : StmtNode} {acx acx' : Acx} {code : List Insn}
    (run : StmtRun node acx acx' code) {magic : AstPath → Bool}
    (calls : ∀ p, isMagic acx.st p = magic p) : acx'.rs = node.alloc magic acx.rs := by
  induction run with
  | null => rfl
  | @assign lvalue rvalue acx acx₁ acx₂ acx₃ acx₄ acx₅ lty rty _ _ left target right _ first second =>
    subst first second
    have calls₂ : ∀ p, isMagic acx₂.st p = magic p := fun p =>
      (isMagic_congr (left.scopes.trans target.scopes) (target.types.trans left.types) p).trans (calls p)
    have sameRs : acx₂.rs = acx₁.rs := by
      obtain ⟨b, rfl⟩ := target.assigned
      rfl
    have two := right.alloc calls₂
    rw [sameRs] at two
    rw [StmtNode.alloc, AstStmt.alloc, ← left.alloc calls, ← two]
    rfl
  | @foor id start finish body acx acx₁ acx₂ acx₃ acx₄ acx₅ acx₆ sty ety _ _ _ _ _ _ first last _ _
      path _ _ back back' _ ih =>
    subst back back'
    have calls₁ : ∀ p, isMagic acx₁.st p = magic p := fun p =>
      (isMagic_congr first.scopes first.types p).trans (calls p)
    have calls₂ : ∀ p, isMagic acx₂.st p = magic p := fun p =>
      (isMagic_congr last.scopes last.types p).trans (calls₁ p)
    have loop : acx₄.rs = body.alloc magic acx₂.rs.take.2 := ih fun p => (isMagic_enter _ p).trans
      ((isMagic_congr path.scopes path.types p).trans (calls₂ p))
    rw [StmtNode.alloc, AstStmt.alloc, ← first.alloc calls]
    simp only
    rw [← last.alloc calls₁]
    simp only [← loop]
    rfl
  | @ite cond thenn elze acx acx₁ acx₂ acx₃ cty _ _ _ test _ yes _ ih₁ ih₂ =>
    have calls₁ : ∀ p, isMagic acx₁.st p = magic p := fun p =>
      (isMagic_congr test.scopes test.types p).trans (calls p)
    have calls₂ : ∀ p, isMagic acx₂.st p = magic p := fun p =>
      (isMagic_congr yes.scopes yes.types p).trans (calls₁ p)
    have one : acx₂.rs = thenn.alloc magic (release (cty.reg, acx₁.rs)) := ih₁ calls₁
    have two : acx₃.rs = elze.alloc magic acx₂.rs := ih₂ calls₂
    rw [StmtNode.alloc, AstStmt.alloc, ← test.alloc calls, ← one, two]
  | @proc p args acx acx₁ cty _ call =>
    have value := (Run.app call : Run (.expr (.app p args) true) acx [cty] acx₁ _).alloc calls
    rw [StmtNode.alloc, AstStmt.alloc, ← value]
    rfl
  | stmts _ ih => exact ih calls
  | @wdo cond body acx acx₁ acx₂ cty _ _ test _ _ ih =>
    have calls₁ : ∀ p, isMagic acx₁.st p = magic p := fun p =>
      (isMagic_congr test.scopes test.types p).trans (calls p)
    have loop : acx₂.rs = body.alloc magic (release (cty.reg, acx₁.rs)) := ih calls₁
    have value : (cty.reg, acx₁.rs) = cond.alloc magic acx.rs := test.alloc calls
    rw [StmtNode.alloc, AstStmt.alloc, ← value, loop]
  | nil => rfl
  | @cons s body acx acx₁ acx₂ _ _ first _ ih₁ ih₂ =>
    have one : acx₁.rs = s.alloc magic acx.rs := ih₁ calls
    have two : acx₂.rs = AstStmt.allocAll magic body acx₁.rs :=
      ih₂ fun p => (isMagic_congr first.scopes first.types p).trans (calls p)
    rw [StmtNode.alloc, AstStmt.allocAll, ← one, two]

/-- Accepted expressions and statements take and give back the registers that their syntax says, in
whatever state the analyzer is. -/
theorem registers_determined :
    (∀ (e : AstExpr) (rv : Bool) (acx acx' : Acx) (r : Resu) (code : List Insn),
      analyzeExpr e rv acx = .ok (r, acx', code) →
        (r.reg, acx'.rs) = e.alloc (isMagic acx.st) acx.rs) ∧
    ∀ (s : AstStmt) (acx acx' : Acx) (code : List Insn),
      analyzeStmt s acx = .ok ((), acx', code) → acx'.rs = s.alloc (isMagic acx.st) acx.rs := by
  constructor
  · intro e rv acx acx' r code accepted
    exact (analyzeExpr_run e accepted).alloc fun _ => rfl
  · intro s acx acx' code accepted
    exact (analyzeStmt_run s accepted).alloc fun _ => rfl

-- while 1 > 0 do, entered with rbx in use.
theorem endless_registers : ∃ acx' code, analyzeStmt (.wdo (.bin .gt (.lit "1") (.lit "0")) .null)
    (initialAcx.setRs (regInit.mark 0)) = .ok ((), acx', code) ∧
      acx'.rs.regsUsed = (regInit.mark 0).regsUsed := by
  have accepted : ∃ acx' code, analyzeStmt (.wdo (.bin .gt (.lit "1") (.lit "0")) .null)
      (initialAcx.setRs (regInit.mark 0)) = .ok ((), acx', code) := ⟨_, _, rfl⟩
  obtain ⟨acx', code, ran⟩ := accepted
  refine ⟨acx', code, ran, ?_⟩
  rw [registers_determined.2 _ _ acx' code ran]
  funext i
  revert i
  decide

end Dragon
