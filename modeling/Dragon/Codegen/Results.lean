import Dragon.Codegen.Locality

/-! The result of a function (rule 5.2).

analyze_subprog clears the flag ret_assigned on entry and puts the old one back
on leaving, so that after the nested subprograms it is clear again. From there
on only the assignments of the own body set it.
-/

set_option autoImplicit false

namespace Dragon

open Analysis

/-! ## The assignments of a body -/

mutual

/-- The root variables of the assignments of a statement, at any depth. -/
def AstStmt.assignedRoots : AstStmt → List Name
  | .null => []
  | .assign lvalue _ => lvalue.root.toList
  | .foor _ _ _ body => body.assignedRoots
  | .ite _ thenn elze => thenn.assignedRoots ++ elze.assignedRoots
  | .proc _ _ => []
  | .stmts body => assignedRootsOfList body
  | .wdo _ body => body.assignedRoots

def assignedRootsOfList : List AstStmt → List Name
  | [] => []
  | s :: body => s.assignedRoots ++ assignedRootsOfList body

end

def StmtNode.assignedRoots : StmtNode → List Name
  | .stmt s => s.assignedRoots
  | .stmts body => assignedRootsOfList body

/-! ## The flag -/

theorem checkRoot_assigned {name : Name} {acx acx' : Acx} {u : Unit} {code : List Insn}
    (run : checkRoot name acx = .ok (u, acx', code)) :
    acx' = acx.setAssigned (acx.retAssigned || decide (acx.currentFuncName = name)) := by
  simp only [checkRoot, get_bind_eq_ok] at run
  split at run
  · simp at run
  · simp only [modify_eq_ok] at run
    exact run.1.symm

-- An accepted target outside the main program is a path or an indexed path, and sets the flag if
-- its root has the name of the function.
theorem checkTarget_assigned {e : AstExpr} {acx acx' : Acx} {u : Unit} {code : List Insn}
    (run : checkTarget e acx = .ok (u, acx', code)) : ∃ name, e.root = some name ∧
      acx' = acx.setAssigned (acx.retAssigned || decide (acx.currentFuncName = name)) := by
  cases e with
  | path p => exact ⟨p.first, rfl, checkRoot_assigned run⟩
  | idx p index =>
    -- the root is checked twice, and the second check finds the flag as the first one left it
    simp only [checkTarget] at run
    rw [bind_eq_ok] at run
    obtain ⟨_, acx₁, _, _, first, second, -⟩ := run
    have once := checkRoot_assigned first
    have twice := checkRoot_assigned second
    subst once
    have same : ∀ b c : Bool, ((b || c) || c) = (b || c) := by decide
    exact ⟨p.first, rfl, twice.trans (congrArg acx.setAssigned (same ..))⟩
  | deref target =>
    simp only [checkTarget] at run
    rw [bind_eq_ok] at run
    obtain ⟨_, _, _, _, _, last, -⟩ := run
    simp at last
  | app => simp [checkTarget] at run
  | bin => simp [checkTarget] at run
  | lit => simp [checkTarget] at run
  | un => simp [checkTarget] at run
  | addrof => simp [checkTarget] at run

theorem Run.retAssigned {node : Node} {acx acx' : Acx} {results : List Resu} {code : List Insn}
    (run : Run node acx results acx' code) : acx'.retAssigned = acx.retAssigned :=
  congrArg (fun f => f.2.1) run.fixed

theorem PathRun.retAssigned {p : AstPath} {rv : Bool} {acx acx' : Acx} {v : StabVar}
    {lines : RegName → List Insn} (path : PathRun p rv acx v acx' lines) :
    acx'.retAssigned = acx.retAssigned := congrArg (fun f => f.2.1) path.fixed

/-- What the flag says after a context has led to another over assignments to some roots. -/
structure Sets (roots : List Name) (acx acx' : Acx) : Prop where
  owner : acx'.owner = acx.owner
  flag : acx'.retAssigned = true ↔ acx.retAssigned = true ∨ acx.currentFuncName ∈ roots

namespace Sets

variable {roots roots' : List Name} {acx acx₁ acx₂ : Acx}

theorem of_kept (owner : acx₁.owner = acx.owner) (flag : acx₁.retAssigned = acx.retAssigned) :
    Sets [] acx acx₁ := by
  refine ⟨owner, ?_⟩
  rw [flag]
  simp

theorem trans (first : Sets roots acx acx₁) (second : Sets roots' acx₁ acx₂) :
    Sets (roots ++ roots') acx acx₂ := by
  have name : acx₁.currentFuncName = acx.currentFuncName := congrArg (fun o => o.2.2) first.owner
  refine ⟨second.owner.trans first.owner, ?_⟩
  rw [second.flag, first.flag, name, List.mem_append, or_assoc]

end Sets

theorem Run.sets {node : Node} {acx acx' : Acx} {results : List Resu} {code : List Insn}
    (run : Run node acx results acx' code) : Sets [] acx acx' := .of_kept run.owner run.retAssigned

theorem PathRun.sets {p : AstPath} {rv : Bool} {acx acx' : Acx} {v : StabVar}
    {lines : RegName → List Insn} (path : PathRun p rv acx v acx' lines) : Sets [] acx acx' :=
  .of_kept path.owner path.retAssigned

theorem TargetRun.sets {e : AstExpr} {acx acx' : Acx} (sub : acx.toplevel = false)
    (target : TargetRun e acx acx') : Sets e.root.toList acx acx' := by
  have accepted := target.accepted
  rw [checkAssignability_eq sub] at accepted
  obtain ⟨name, root, rfl⟩ := checkTarget_assigned accepted
  refine ⟨rfl, ?_⟩
  simp [root, Acx.setAssigned]

theorem StmtRun.sets {node : StmtNode} {acx acx' : Acx} {code : List Insn}
    (run : StmtRun node acx acx' code) (sub : acx.toplevel = false) :
    Sets node.assignedRoots acx acx' := by
  induction run with
  | null => exact .of_kept rfl rfl
  | @assign lvalue rvalue acx acx₁ acx₂ acx₃ acx₄ acx₅ _ _ _ _ left target right _ first second =>
    subst first second
    have inner : acx₁.toplevel = false := (congrArg Prod.fst left.owner).trans sub
    have both := (left.sets.trans (target.sets inner)).trans right.sets
    simp only [List.nil_append, List.append_nil] at both
    exact ⟨both.owner, both.flag⟩
  | @foor id start finish body acx acx₁ acx₂ acx₃ acx₄ acx₅ acx₆ _ _ _ _ _ _ _ _
      first last _ _ path _ _ back back' _ ih =>
    subst back back'
    have heads := (first.sets.trans last.sets).trans path.sets
    have inner : acx₃.toplevel = false := (congrArg Prod.fst heads.owner).trans sub
    have loop := ih inner
    exact heads.trans ⟨loop.owner, loop.flag⟩
  | @ite cond thenn elze acx acx₁ acx₂ acx₃ _ _ _ _ test _ yes no ih₁ ih₂ =>
    have inner : acx₁.toplevel = false := (congrArg Prod.fst test.owner).trans sub
    have first := ih₁ inner
    have second := ih₂ ((congrArg Prod.fst yes.owner).trans inner)
    exact test.sets.trans (.trans ⟨first.owner, first.flag⟩ second)
  | proc call => exact ⟨call.sets.owner, call.sets.flag⟩
  | stmts _ ih => exact ih sub
  | @wdo cond body acx acx₁ acx₂ _ _ _ test _ _ ih =>
    have inner : acx₁.toplevel = false := (congrArg Prod.fst test.owner).trans sub
    have loop := ih inner
    have both := test.sets.trans ⟨loop.owner, loop.flag⟩
    exact ⟨both.owner, both.flag⟩
  | nil => exact .of_kept rfl rfl
  | cons first _ ih₁ ih₂ => exact (ih₁ sub).trans (ih₂ ((congrArg Prod.fst first.owner).trans sub))

/-! ## The flag at the own body -/

theorem SubRun.retAssigned {node : SubNode} {acx acx' : Acx} {code : List Insn}
    (run : SubRun node acx acx' code) : acx'.retAssigned = acx.retAssigned := by
  induction run with
  | sub => rfl
  | nil => rfl
  | cons _ _ _ ih₁ ih₂ => exact ih₂.trans ih₁

theorem Prepared.retAssigned {d : AstSubdecl} {start inner : Acx} (prepared : Prepared d start inner) :
    inner.retAssigned = false := by
  obtain ⟨slot, acx, opening, nested, opened, ran⟩ := prepared.analyzed
  rw [(analyzeSubprogs_run _ ran).retAssigned]
  obtain ⟨st, -, rfl, -⟩ := openSubprog_eq_ok.mp opened
  rfl

theorem Prepared.assigned_iff {d : AstSubdecl} {start inner acx : Acx} {code : List Insn}
    (sub : start.toplevel = false) (prepared : Prepared d start inner)
    (body : StmtRun (.stmt d.body) inner acx code) :
    acx.retAssigned = true ↔ d.name ∈ d.body.assignedRoots := by
  have owner := prepared.owner
  have name : inner.currentFuncName = d.name := congrArg (fun o => o.2.2) owner
  rw [(body.sets ((congrArg Prod.fst owner).trans sub)).flag, prepared.retAssigned, name]
  simp [StmtNode.assignedRoots]

theorem checkReturn_eq_ok {acx : Acx} :
    checkReturn acx = .ok ((), acx, []) ↔
      ¬ (acx.retAssigned = false ∧ acx.currentFuncType = .function) := by
  simp only [checkReturn, get_bind]
  split
  next missing => simp [missing]
  next assigned => exact iff_of_true rfl assigned

/-- Every function of an accepted program assigns to its name in its own body; and once the
analysis of a subprogram's body has come to its end, one that does so passes the check. -/
theorem result_assigned (prog : AstProgram) :
    (∀ acx code, analyze prog = .ok (acx, code) → ∀ path d, prog.subprogAt path = some d →
      d.head.type = .function → d.name ∈ d.body.assignedRoots) ∧
    (∀ path d start before inner off captured opening acx acx' code,
      prog.Visits path d start before → Prepared d start inner →
      prologue off inner = .ok (captured, acx, opening) →
      analyzeStmt d.body acx = .ok ((), acx', code) → d.name ∈ d.body.assignedRoots →
        checkReturn acx' = .ok ((), acx', [])) := by
  constructor
  · intro acx code accepted path d declared function
    obtain ⟨start, before, inner, retslot, off, nested, own, after, visits, parts, -⟩ :=
      analyze_visits accepted declared
    obtain ⟨acx₁, opened, ran⟩ := parts.nested
    obtain ⟨acx₂, owned⟩ := parts.own
    obtain ⟨captured, bodyCode, slot, owned⟩ := ownCode_run owned
    have prepared : Prepared d start inner := ⟨_, acx₁, _, nested, opened, ran⟩
    have type : acx₂.currentFuncType = d.head.type :=
      congrArg (fun o => o.2.1) (owned.run.owner.trans prepared.owner)
    apply (prepared.assigned_iff visits.toplevel owned.run).mp
    by_contra missing
    exact owned.assigned ⟨by simpa using missing, type.trans function⟩
  · intro path d start before inner off captured opening acx acx' code visits prepared opened body
      assigns
    obtain ⟨rfl, -, -⟩ := prologue_run opened
    have assigned := (prepared.assigned_iff visits.toplevel (analyzeStmt_run _ body)).mpr assigns
    apply checkReturn_eq_ok.mpr
    rintro ⟨missing, -⟩
    rw [assigned] at missing
    cases missing

-- function f: integer; begin f := 1 end
def answerDecl : AstSubdecl :=
  .mk ⟨.function, [], some .integer⟩ "f" [] [] [] (.stmts [.assign (.path (astPath "f")) (.lit "1")])

def answerProgram : AstProgram := ⟨[], [], [answerDecl], [], .null⟩

theorem answerProgram_result_assigned : (∃ acx code, analyze answerProgram = .ok (acx, code)) ∧
    answerProgram.subprogAt [0] = some answerDecl ∧
    answerDecl.name ∈ answerDecl.body.assignedRoots := by
  have accepted : (analyze answerProgram).toOption.isSome = true := by decide +kernel
  obtain ⟨⟨acx, code⟩, result⟩ := exists_ok_of_isSome accepted
  exact ⟨⟨acx, code, result⟩, rfl,
    (result_assigned answerProgram).1 acx code result [0] answerDecl rfl rfl⟩

end Dragon
