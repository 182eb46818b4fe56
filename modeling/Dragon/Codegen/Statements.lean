import Dragon.Codegen.Scoping
import Dragon.Codegen.Visits
import Dragon.Symbol.Locals

/-! The statements of a body and the contexts the analyzer comes to them in.

A for loop opens a scope for its body, so what a statement sees of the table
depends on the number of loops around it. The other statements open none.
-/

set_option autoImplicit false

namespace Dragon

open Analysis Stab

/-! ## What statements leave as it is -/

/-- The fields that only analyze and analyze_subprog set. -/
def Acx.owner (acx : Acx) : Bool × Subprogs × Name :=
  (acx.toplevel, acx.currentFuncType, acx.currentFuncName)

def Acx.fixed (acx : Acx) : (Bool × Subprogs × Name) × Bool × Nat :=
  (acx.owner, acx.retAssigned, acx.label)

theorem Acx.use_fixed (acx : Acx) (name : Name) (idx : Index) (v : StabVar) :
    (acx.use name idx v).fixed = acx.fixed := by
  unfold Acx.use
  split <;> rfl

theorem PathRun.fixed {p : AstPath} {rv : Bool} {acx acx' : Acx} {v : StabVar}
    {lines : RegName → List Insn} (path : PathRun p rv acx v acx' lines) :
    acx'.fixed = acx.fixed := path.used ▸ acx.use_fixed ..

theorem Run.fixed {node : Node} {acx acx' : Acx} {results : List Resu} {code : List Insn}
    (run : Run node acx results acx' code) : acx'.fixed = acx.fixed := by
  induction run with
  | lit => rfl
  | path path => exact path.fixed
  | deref path _ _ => exact path.fixed
  | idx path _ _ _ _ ih => exact ih.trans path.fixed
  | bin _ _ _ _ ih₁ ih₂ => exact ih₂.trans ih₁
  | un _ _ _ ih => exact ih
  | app _ ih => exact ih
  | magic _ _ _ ih => exact ih
  | call _ _ _ _ ih => exact ih
  | noActuals => rfl
  | actual _ _ _ _ ih₁ ih₂ => exact ih₂.trans ih₁
  | wrote => rfl
  | write _ _ _ ih₁ ih₂ => exact ih₂.trans ih₁
  | read_ => rfl
  | read _ _ _ _ ih₁ ih₂ => exact ih₂.trans ih₁

theorem PathRun.owner {p : AstPath} {rv : Bool} {acx acx' : Acx} {v : StabVar}
    {lines : RegName → List Insn} (path : PathRun p rv acx v acx' lines) :
    acx'.owner = acx.owner := congrArg Prod.fst path.fixed

theorem Run.owner {node : Node} {acx acx' : Acx} {results : List Resu} {code : List Insn}
    (run : Run node acx results acx' code) : acx'.owner = acx.owner := congrArg Prod.fst run.fixed

theorem Run.label {node : Node} {acx acx' : Acx} {results : List Resu} {code : List Insn}
    (run : Run node acx results acx' code) : acx'.label = acx.label :=
  congrArg (fun f => f.2.2) run.fixed

theorem TargetRun.owner {e : AstExpr} {acx acx' : Acx} (target : TargetRun e acx acx') :
    acx'.owner = acx.owner := by
  obtain ⟨b, rfl⟩ := target.assigned
  rfl

theorem StmtRun.owner {node : StmtNode} {acx acx' : Acx} {code : List Insn}
    (run : StmtRun node acx acx' code) : acx'.owner = acx.owner := by
  induction run with
  | null => rfl
  | assign left target right _ first second =>
    subst first second
    exact right.owner.trans (target.owner.trans left.owner)
  | foor first last _ _ path _ _ back back' leave ih =>
    subst back back'
    exact ih.trans (path.owner.trans (last.owner.trans first.owner))
  | ite test _ _ _ ih₁ ih₂ => exact ih₂.trans (ih₁.trans test.owner)
  | proc call => exact call.owner
  | stmts _ ih => exact ih
  | wdo test _ _ ih => exact ih.trans test.owner
  | nil => rfl
  | cons _ _ ih₁ ih₂ => exact ih₂.trans ih₁

theorem SubRun.owner {node : SubNode} {acx acx' : Acx} {code : List Insn}
    (run : SubRun node acx acx' code) : acx'.owner = acx.owner := by
  induction run with
  | sub _ _ own _ ih =>
    have top := congrArg Prod.fst (own.run.owner.trans ih)
    exact congrArg (fun b => (b, _, _)) top
  | nil => rfl
  | cons _ _ _ ih₁ ih₂ => exact ih₂.trans ih₁

/-! ## Coming to a statement -/

/-- analyze_stmt, started on a body, comes to a statement of it in the context at_, inside a
number of for loops of the body. -/
inductive Comes : StmtNode → Acx → Nat → AstStmt → Acx → Prop where
  | here {s : AstStmt} {acx : Acx} : Comes (.stmt s) acx 0 s acx
  | foor {id : Name} {start finish : AstExpr} {body s : AstStmt} {acx acx₁ acx₂ acx₃ at_ : Acx}
      {sty ety ity : Resu} {code₁ code₂ code₃ : List Insn} {loops : Nat}
      (first : analyzeExpr start true acx = .ok (sty, acx₁, code₁))
      (last : analyzeExpr finish true acx₁ = .ok (ety, acx₂, code₂))
      (path : typeOfPath (astPath id) false acx₂ = .ok (ity, acx₃, code₃))
      (inner : Comes (.stmt body) (acx₃.setSt (stabEnter acx₃.st)).afterLabels loops s at_) :
      Comes (.stmt (.foor id start finish body)) acx (loops + 1) s at_
  | thenn {cond : AstExpr} {thenn elze s : AstStmt} {acx acx₁ at_ : Acx} {cty : Resu}
      {code : List Insn} {loops : Nat} (test : analyzeExpr cond true acx = .ok (cty, acx₁, code))
      (inner : Comes (.stmt thenn) (acx₁.afterLabels.setRs (acx₁.rs.takeitback cty.reg).1) loops s
        at_) :
      Comes (.stmt (.ite cond thenn elze)) acx loops s at_
  | elze {cond : AstExpr} {thenn elze s : AstStmt} {acx acx₁ acx₂ at_ : Acx} {cty : Resu}
      {code code' : List Insn} {loops : Nat}
      (test : analyzeExpr cond true acx = .ok (cty, acx₁, code))
      (yes : analyzeStmt thenn (acx₁.afterLabels.setRs (acx₁.rs.takeitback cty.reg).1) =
        .ok ((), acx₂, code'))
      (inner : Comes (.stmt elze) acx₂ loops s at_) :
      Comes (.stmt (.ite cond thenn elze)) acx loops s at_
  | wdo {cond : AstExpr} {body s : AstStmt} {acx acx₁ at_ : Acx} {cty : Resu} {code : List Insn}
      {loops : Nat} (test : analyzeExpr cond true acx.afterLabels = .ok (cty, acx₁, code))
      (inner : Comes (.stmt body) (acx₁.setRs (acx₁.rs.takeitback cty.reg).1) loops s at_) :
      Comes (.stmt (.wdo cond body)) acx loops s at_
  | stmts {body : List AstStmt} {s : AstStmt} {acx at_ : Acx} {loops : Nat}
      (inner : Comes (.stmts body) acx loops s at_) : Comes (.stmt (.stmts body)) acx loops s at_
  | head {t s : AstStmt} {body : List AstStmt} {acx at_ : Acx} {loops : Nat}
      (inner : Comes (.stmt t) acx loops s at_) : Comes (.stmts (t :: body)) acx loops s at_
  | tail {t s : AstStmt} {body : List AstStmt} {acx acx₁ at_ : Acx} {code : List Insn} {loops : Nat}
      (first : analyzeStmt t acx = .ok ((), acx₁, code))
      (inner : Comes (.stmts body) acx₁ loops s at_) : Comes (.stmts (t :: body)) acx loops s at_

/-- The scope a statement is analyzed in: that of the body, or the empty one of the loop around
it. -/
structure SeenFrom (acx : Acx) (loops : Nat) (at_ : Acx) : Prop where
  owner : at_.owner = acx.owner
  outside : loops = 0 → SameScopes acx.st at_.st
  inside : loops ≠ 0 → at_.st.innermost = stabScopeNew

theorem SeenFrom.after {acx acx₁ at_ : Acx} {loops : Nat} (owner : acx₁.owner = acx.owner)
    (scopes : SameScopes acx.st acx₁.st) (seen : SeenFrom acx₁ loops at_) :
    SeenFrom acx loops at_ :=
  ⟨seen.owner.trans owner, fun none => scopes.trans (seen.outside none), seen.inside⟩

theorem Comes.seen {node : StmtNode} {acx at_ : Acx} {loops : Nat} {s : AstStmt}
    (comes : Comes node acx loops s at_) : SeenFrom acx loops at_ := by
  induction comes with
  | here => exact ⟨rfl, fun _ => .refl _, fun some_ => absurd rfl some_⟩
  | @foor id start finish body s acx acx₁ acx₂ acx₃ at_ sty ety ity _ _ _ loops first last path _ ih =>
    obtain ⟨v, acx₄, lines, used, -, rfl, -⟩ := typeOfPath_run path
    have owner : acx₄.owner = acx.owner :=
      used.owner.trans ((analyzeExpr_run _ last).owner.trans (analyzeExpr_run _ first).owner)
    refine ⟨ih.owner.trans owner, fun none => absurd none (Nat.succ_ne_zero loops), fun _ => ?_⟩
    by_cases none : loops = 0
    · -- the statement stands directly in the scope of this loop
      rw [(ih.outside none).innermost]
      rfl
    · exact ih.inside none
  | thenn test _ ih =>
    apply ih.after
    · exact (analyzeExpr_run _ test).owner
    · exact (analyzeExpr_run _ test).scopes
  | elze test yes _ ih =>
    apply ih.after
    · exact (analyzeStmt_run _ yes).owner.trans (analyzeExpr_run _ test).owner
    · exact (analyzeExpr_run _ test).scopes.trans (analyzeStmt_run _ yes).scopes
  | wdo test _ ih =>
    apply ih.after
    · exact (analyzeExpr_run _ test).owner
    · exact (analyzeExpr_run _ test).scopes
  | stmts _ ih => exact ih
  | head _ ih => exact ih
  | tail first _ ih => exact ih.after (analyzeStmt_run _ first).owner (analyzeStmt_run _ first).scopes

/-! ## The names of a subprogram -/

/-- The names a subprogram declares: its formals, its locals and its return slot. -/
def AstSubdecl.declared (d : AstSubdecl) : List Name :=
  d.head.args.flatMap AstDecls.names ++ d.decls.flatMap AstDecls.names ++ [d.name]

def formalNames (subprogs : List AstSubdecl) : List Name :=
  subprogs.flatMap fun d => d.head.formals.map Prod.fst

theorem Opened.adds {st st' : Stab} {head : AstSig} {name : Name} {types : List AstTypeDecl}
    {decls : List AstDecls} {retslot : Index} {off : Int}
    (opened : Opened st head name types decls retslot off st') :
    Adds (stabEnter st) st'
      (head.args.flatMap AstDecls.names ++ decls.flatMap AstDecls.names ++ [name]) := by
  obtain ⟨st₁, off₂, st₂, off₃, st₃, retty, st₄, types, formals, locals, result, added⟩ := opened
  have first := (stabAddAllTypes_adds types).trans (stabAddAllDecls_adds formals)
  have second : Adds st₃ st₄ [] := .of_same (stabResolveRetty_scopes result)
  have all := ((first.trans (stabAddAllDecls_adds locals)).trans second).trans (stabAddVar_adds added)
  simpa only [List.nil_append, List.append_nil] using all

theorem openSubprog_adds {d : AstSubdecl} {acx acx' : Acx} {slot : Index × Int} {code : List Insn}
    (opened : openSubprog d.head d.name d.types d.decls acx = .ok (slot, acx', code)) :
    acx'.owner = (acx.toplevel, d.head.type, d.name) ∧
      Adds (stabEnter acx.st) acx'.st d.declared := by
  obtain ⟨retslot, off⟩ := slot
  obtain ⟨st, entered, rfl, -⟩ := openSubprog_eq_ok.mp opened
  exact ⟨rfl, entered.adds⟩

theorem SubRun.adds {node : SubNode} {acx acx' : Acx} {code : List Insn}
    (run : SubRun node acx acx' code) :
    match node with
    | .sub _ => True
    | .subs subprogs => Adds acx.st acx'.st (formalNames subprogs) := by
  induction run with
  | sub => trivial
  | nil => exact .of_same (.refl _)
  | cons added first _ _ ih =>
    have here := stabAddFunc_adds added
    have same : Adds _ _ [] := .of_same first.scopes
    have all := (here.trans same).trans ih
    rw [List.append_nil] at all
    exact all

/-- The context in which the own code of a subprogram is analyzed. -/
structure Prepared (d : AstSubdecl) (start inner : Acx) : Prop where
  analyzed : ∃ slot acx opening nested,
    openSubprog d.head d.name d.types d.decls start = .ok (slot, acx, opening) ∧
    analyzeSubprogs d.subprogs acx = .ok ((), inner, nested)

theorem Prepared.locals {d : AstSubdecl} {start inner : Acx} (prepared : Prepared d start inner)
    (n : Name) : stabHasLocalVar inner.st n = true ↔ n ∈ d.declared ∨ n ∈ formalNames d.subprogs := by
  obtain ⟨slot, acx, opening, nested, opened, ran⟩ := prepared.analyzed
  obtain ⟨-, declares⟩ := openSubprog_adds opened
  have nests : Adds acx.st inner.st (formalNames d.subprogs) := (analyzeSubprogs_run _ ran).adds
  have empty : stabHasLocalVar (stabEnter start.st) n = false := by
    simp [stabHasLocalVar, stabEnter, stabScopeNew]
  rw [nests.locals, declares.locals, empty]
  simp only [Bool.false_eq_true, false_or]

theorem Prepared.owner {d : AstSubdecl} {start inner : Acx} (prepared : Prepared d start inner) :
    inner.owner = (start.toplevel, d.head.type, d.name) := by
  obtain ⟨slot, acx, opening, nested, opened, ran⟩ := prepared.analyzed
  exact (analyzeSubprogs_run _ ran).owner.trans (openSubprog_adds opened).1

end Dragon
