import Dragon.Codegen.Runs

/-! The accepted runs of analyze_subprog and of the loop over subprograms.

The code of a subprogram is its label, the code of the subprograms declared in
it, and then its own code: prologue, body and epilogue.
-/

set_option autoImplicit false

namespace Dragon

open Analysis

namespace Acx

def enterSubprog (acx : Acx) (head : AstSig) (name : Name) : Acx :=
  { acx with
    rs := regInit
    currentFuncName := name
    retAssigned := false
    currentFuncType := head.type
    label := 0 }

def leaveSubprog (acx old : Acx) : Acx :=
  { acx with
    currentFuncName := old.currentFuncName
    label := old.label
    retAssigned := old.retAssigned
    currentFuncType := old.currentFuncType
    rs := old.rs }

end Acx

theorem doImports_preserves {P : Stab → Prop}
    (magic : ∀ (st : Stab) (which : Magic), P st → P (stabAddMagicFunc st which)) {args : List Name}
    {st st' : Stab} (before : P st) (imports : doImports st args = .ok st') : P st' := by
  induction args generalizing st with
  | nil =>
    cases imports
    exact before
  | cons imported args ih =>
    simp only [doImports] at imports
    split at imports
    · exact ih (magic _ _ (magic _ _ before)) imports
    · split at imports
      · exact ih (magic _ _ (magic _ _ before)) imports
      · cases imports

/-- The symbol table part of openSubprog: what a declaration puts into its own scope. -/
structure Opened (st : Stab) (head : AstSig) (name : Name) (types : List AstTypeDecl)
    (decls : List AstDecls) (retslot : Index) (off : Int) (st' : Stab) : Prop where
  steps : ∃ st₁ off₂ st₂ off₃ st₃ retty st₄,
    stabAddAllTypes (stabEnter st) types = .ok st₁ ∧
    stabAddAllDecls st₁ false head.args (8 * (head.args.length + 1)) = .ok (off₂, st₂) ∧
    stabAddAllDecls st₂ true decls 0 = .ok (off₃, st₃) ∧
    stabResolveRetty st₃ head.retty = .ok (retty, st₄) ∧
    stabAddVar st₄ name retty off₃ true = .ok (retslot, off, st')

theorem openSubprog_eq_ok {head : AstSig} {name : Name} {types : List AstTypeDecl}
    {decls : List AstDecls} {acx acx' : Acx} {retslot : Index} {off : Int} {code : List Insn} :
    openSubprog head name types decls acx = .ok ((retslot, off), acx', code) ↔
      ∃ st, Opened acx.st head name types decls retslot off st ∧
        acx' = (acx.enterSubprog head name).setSt st ∧
        code = [.global (.sub name), .label (.sub name)] := by
  simp only [openSubprog, modify_bind_eq_ok, emit_bind_eq_ok, withStab_bind_eq_ok,
    except_bind_eq_ok, withStab_eq_ok]
  constructor
  · rintro ⟨_, ⟨_, st₁, ⟨_, types, pure⟩, off₂, st₂, formals, off₃, st₃, locals, retty, st₄, result,
      st₅, ⟨⟨slot, off', st₆⟩, added, last⟩, rfl, rfl⟩, rfl⟩
    cases pure
    cases last
    exact ⟨_, ⟨_, _, _, _, _, _, _, types, formals, locals, result, added⟩, rfl, rfl⟩
  · rintro ⟨st, ⟨st₁, off₂, st₂, off₃, st₃, retty, st₄, types, formals, locals, result, added⟩,
      rfl, rfl⟩
    exact ⟨_, ⟨(), st₁, ⟨_, types, rfl⟩, _, _, formals, _, _, locals, _, _, result, _,
      ⟨_, added, rfl⟩, rfl, rfl⟩, rfl⟩

def saveLines (v : StabVar) : List Insn :=
  [.pushDisplay (v.dispOffset * abiPointerSize),
    .storeDisplayFrame (v.dispOffset * abiPointerSize) v.stackBaseOffset]

def capturedVars (st : Stab) (entries : List (BucketEntry Name)) : List StabVar :=
  (entries.filterMap fun ent => stabVar st ent.val).filter StabVar.captured

theorem saveDisplay_run {entries : List (BucketEntry Name)} {acx acx' : Acx}
    {captured : List StabVar} {code : List Insn}
    (run : saveDisplay entries acx = .ok (captured, acx', code)) :
    acx' = acx ∧ captured = capturedVars acx.st entries ∧ code = captured.flatMap saveLines := by
  induction entries generalizing captured code with
  | nil =>
    simp only [saveDisplay, pure_eq_ok] at run
    obtain ⟨rfl, rfl, rfl⟩ := run
    exact ⟨rfl, rfl, rfl⟩
  | cons ent entries ih =>
    simp only [saveDisplay, get_bind_eq_ok, ofOption_bind_eq_ok] at run
    obtain ⟨v, found, run⟩ := run
    split at run
    next isCaptured =>
      simp only [emit_bind_eq_ok] at run
      obtain ⟨_, run, rfl⟩ := run
      rw [bind_eq_ok] at run
      obtain ⟨rest, acx₁, _, _, run, last, rfl⟩ := run
      simp only [pure_eq_ok] at last
      obtain ⟨rfl, rfl, rfl⟩ := last
      obtain ⟨rfl, rfl, rfl⟩ := ih run
      refine ⟨rfl, ?_, ?_⟩
      · simp [capturedVars, found, isCaptured]
      · simp [saveLines]
    next free =>
      obtain ⟨rfl, rfl, rfl⟩ := ih run
      refine ⟨rfl, ?_, rfl⟩
      simp [capturedVars, found, free]

def copyLines (type : Subprogs) (slot : StabVar) (rs : RegisterSet) : List Insn :=
  if type = .function then
    rs.gimme.2.2 ++ ([.load rs.gimme.1.name .rbp slot.stackBaseOffset, .store .rbp rs.gimme.1.name] ++
      (rs.gimme.2.1.takeitback rs.gimme.1).2)
  else []

def epilogueLines (rs : RegisterSet) (type : Subprogs) (slot : StabVar) (off : Int)
    (captured : List StabVar) : List Insn :=
  rs.gimme.2.2 ++ (restoreDisplay captured rs.gimme.1 ++ ((rs.gimme.2.1.takeitback rs.gimme.1).2 ++
    (copyLines type slot rs ++ [.addImm .rsp (off - abiPointerSize), .ret])))

theorem copyResult_run {retslot : Index} {acx acx' : Acx} {u : Unit} {code : List Insn}
    (run : copyResult retslot acx = .ok (u, acx', code)) :
    ∃ slot, acx' = acx ∧
      (acx.currentFuncType = .function → stabVar acx.st retslot = some slot) ∧
      code = copyLines acx.currentFuncType slot acx.rs := by
  simp only [copyResult, get_bind_eq_ok] at run
  split at run
  next function =>
    simp only [regGimme_bind_eq_ok, ofOption_bind_eq_ok, emit_bind_eq_ok, regTakeitback_eq_ok] at run
    obtain ⟨_, ⟨slot, found, _, ⟨rfl, rfl⟩, rfl⟩, rfl⟩ := run
    refine ⟨slot, ?_, fun _ => found, ?_⟩
    · simp [RegisterSet.takeitback_gimme]
    · simp only [copyLines, function, if_true, Acx.setRs_rs]
  next procedure =>
    simp only [pure_eq_ok] at run
    obtain ⟨-, rfl, rfl⟩ := run
    refine ⟨⟨0, "", 0, 0, false⟩, rfl, fun function => absurd function procedure, ?_⟩
    rw [copyLines, if_neg procedure]

theorem prologue_run {off : Int} {acx acx' : Acx} {captured : List StabVar} {code : List Insn}
    (run : prologue off acx = .ok (captured, acx', code)) :
    acx' = acx ∧ captured = capturedVars acx.st acx.st.innermost.vars.entries ∧
      code = .subImm .rsp (off - abiPointerSize) :: captured.flatMap saveLines := by
  simp only [prologue, emit_bind_eq_ok, get_bind_eq_ok] at run
  obtain ⟨_, saved, rfl⟩ := run
  obtain ⟨rfl, captured_eq, rfl⟩ := saveDisplay_run saved
  exact ⟨rfl, captured_eq, rfl⟩

theorem epilogue_run {retslot : Index} {off : Int} {captured : List StabVar} {acx acx' : Acx}
    {u : Unit} {code : List Insn} (run : epilogue retslot off captured acx = .ok (u, acx', code)) :
    ∃ slot, acx' = acx ∧ (acx.currentFuncType = .function → stabVar acx.st retslot = some slot) ∧
      code = epilogueLines acx.rs acx.currentFuncType slot off captured := by
  simp only [epilogue, regGimme_bind_eq_ok, emit_bind_eq_ok, regTakeitback_bind_eq_ok,
    Acx.setRs_rs, Acx.setRs_setRs, RegisterSet.takeitback_gimme, Acx.setRs_self] at run
  obtain ⟨_, ⟨_, ⟨_, run, rfl⟩, rfl⟩, rfl⟩ := run
  rw [bind_eq_ok] at run
  obtain ⟨_, acx₁, _, _, copied, last, rfl⟩ := run
  obtain ⟨slot, rfl, found, rfl⟩ := copyResult_run copied
  simp only [emit_eq_ok] at last
  obtain ⟨rfl, rfl⟩ := last
  exact ⟨slot, rfl, found, rfl⟩

/-- What the own code of an accepted subprogram is. -/
structure OwnRun (retslot : Index) (off : Int) (body : AstStmt) (acx acx' : Acx)
    (captured : List StabVar) (bodyCode : List Insn) (slot : StabVar) (code : List Insn) : Prop where
  captured_eq : captured = capturedVars acx.st acx.st.innermost.vars.entries
  run : StmtRun (.stmt body) acx acx' bodyCode
  assigned : ¬ (acx'.retAssigned = false ∧ acx'.currentFuncType = .function)
  found : acx'.currentFuncType = .function → stabVar acx'.st retslot = some slot
  code_eq : code = .subImm .rsp (off - abiPointerSize) :: (captured.flatMap saveLines ++
    (bodyCode ++ epilogueLines acx'.rs acx'.currentFuncType slot off captured))

theorem ownCode_run {retslot : Index} {off : Int} {body : AstStmt} {acx acx' : Acx} {u : Unit}
    {code : List Insn} (run : ownCode retslot off body acx = .ok (u, acx', code)) :
    ∃ captured bodyCode slot, OwnRun retslot off body acx acx' captured bodyCode slot code := by
  simp only [ownCode] at run
  rw [bind_eq_ok] at run
  obtain ⟨captured, acx₁, _, _, opened, run, rfl⟩ := run
  obtain ⟨rfl, captured_eq, rfl⟩ := prologue_run opened
  rw [bind_eq_ok] at run
  obtain ⟨_, acx₂, bodyCode, _, ran, run, rfl⟩ := run
  rw [bind_eq_ok] at run
  obtain ⟨_, acx₃, _, _, checked, run, rfl⟩ := run
  simp only [checkReturn, get_bind_eq_ok] at checked
  split at checked
  · simp at checked
  next assigned =>
    simp only [pure_eq_ok] at checked
    obtain ⟨-, rfl, rfl⟩ := checked
    obtain ⟨slot, rfl, found, rfl⟩ := epilogue_run run
    refine ⟨captured, bodyCode, slot, captured_eq, analyzeStmt_run _ ran, assigned, found, ?_⟩
    simp only [List.cons_append, List.nil_append]

inductive SubNode where
  | sub (d : AstSubdecl)
  | subs (subprogs : List AstSubdecl)

inductive SubRun : SubNode → Acx → Acx → List Insn → Prop where
  | sub {head : AstSig} {name : Name} {decls : List AstDecls} {subprogs : List AstSubdecl}
      {types : List AstTypeDecl} {body : AstStmt} {acx acx₁ acx₂ : Acx} {st st' : Stab}
      {retslot : Index} {off : Int} {captured : List StabVar} {slot : StabVar}
      {code₁ bodyCode code₂ : List Insn}
      (opened : Opened acx.st head name types decls retslot off st)
      (nested : SubRun (.subs subprogs) ((acx.enterSubprog head name).setSt st) acx₁ code₁)
      (own : OwnRun retslot off body acx₁ acx₂ captured bodyCode slot code₂)
      (leave : stabLeave acx₂.st = .ok st') :
      SubRun (.sub (.mk head name decls subprogs types body)) acx
        ((acx₂.setSt st').leaveSubprog acx)
        ([.global (.sub name), .label (.sub name)] ++ (code₁ ++ code₂))
  | nil {acx : Acx} : SubRun (.subs []) acx acx []
  | cons {d : AstSubdecl} {subprogs : List AstSubdecl} {acx acx₁ acx₂ : Acx} {st : Stab}
      {code₁ code₂ : List Insn} (added : stabAddFunc acx.st d.name d.head = .ok st)
      (first : SubRun (.sub d) (acx.setSt st) acx₁ code₁)
      (rest : SubRun (.subs subprogs) acx₁ acx₂ code₂) :
      SubRun (.subs (d :: subprogs)) acx acx₂ (code₁ ++ code₂)

theorem closeSubprog_eq_ok {old acx acx' : Acx} {u : Unit} {code : List Insn} :
    closeSubprog old acx = .ok (u, acx', code) ↔
      ∃ st, stabLeave acx.st = .ok st ∧ acx' = (acx.setSt st).leaveSubprog old ∧ code = [] := by
  simp only [closeSubprog, withStab_bind_eq_ok, except_bind_eq_ok, modify_eq_ok]
  constructor
  · rintro ⟨_, st, ⟨_, leave, pure⟩, rfl, rfl⟩
    cases pure
    exact ⟨_, leave, rfl, rfl⟩
  · rintro ⟨st, leave, rfl, rfl⟩
    exact ⟨(), st, ⟨st, leave, rfl⟩, rfl, rfl⟩

mutual

theorem analyzeSubprog_run : ∀ (d : AstSubdecl) {acx acx' : Acx} {u : Unit} {code : List Insn},
    analyzeSubprog d acx = .ok (u, acx', code) → SubRun (.sub d) acx acx' code
  | .mk head name decls subprogs types body, _, _, _, _, run => by
      simp only [analyzeSubprog, get_bind_eq_ok] at run
      rw [bind_eq_ok] at run
      obtain ⟨⟨retslot, off⟩, acx₁, _, _, opened, run, rfl⟩ := run
      obtain ⟨st, entered, rfl, rfl⟩ := openSubprog_eq_ok.mp opened
      rw [bind_eq_ok] at run
      obtain ⟨_, acx₂, code₂, _, nested, run, rfl⟩ := run
      rw [bind_eq_ok] at run
      obtain ⟨_, acx₃, code₃, _, own, run, rfl⟩ := run
      obtain ⟨captured, bodyCode, slot, own⟩ := ownCode_run own
      obtain ⟨st', leave, rfl, rfl⟩ := closeSubprog_eq_ok.mp run
      rw [List.append_nil]
      exact .sub entered (analyzeSubprogs_run _ nested) own leave

theorem analyzeSubprogs_run : ∀ (subprogs : List AstSubdecl) {acx acx' : Acx} {u : Unit}
    {code : List Insn}, analyzeSubprogs subprogs acx = .ok (u, acx', code) →
      SubRun (.subs subprogs) acx acx' code
  | [], _, _, _, _, run => by
      simp only [analyzeSubprogs, pure_eq_ok] at run
      obtain ⟨-, rfl, rfl⟩ := run
      exact .nil
  | d :: subprogs, _, _, _, _, run => by
      simp only [analyzeSubprogs, withStab_bind_eq_ok, except_bind_eq_ok] at run
      obtain ⟨_, st, ⟨_, added, pure⟩, run⟩ := run
      cases pure
      rw [bind_eq_ok] at run
      obtain ⟨_, acx₁, code₁, _, first, run, rfl⟩ := run
      exact .cons added (analyzeSubprog_run d first) (analyzeSubprogs_run subprogs run)

end

/-! ## Programs -/

/-- The variables of the global scope that some subprogram uses, each stored in the display. -/
def storeLines (rs : RegisterSet) (v : StabVar) : List Insn :=
  rs.gimme.2.2 ++ ([.lea rs.gimme.1.name v.stackBaseOffset,
    .storeDisplay (v.dispOffset * abiPointerSize) rs.gimme.1.name] ++
    (rs.gimme.2.1.takeitback rs.gimme.1).2)

theorem storeGlobals_run {entries : List (BucketEntry Name)} {acx acx' : Acx} {u : Unit}
    {code : List Insn} (run : storeGlobals entries acx = .ok (u, acx', code)) :
    acx' = acx ∧ code = (capturedVars acx.st entries).flatMap (storeLines acx.rs) := by
  induction entries generalizing code with
  | nil =>
    simp only [storeGlobals, pure_eq_ok] at run
    obtain ⟨-, rfl, rfl⟩ := run
    exact ⟨rfl, rfl⟩
  | cons ent entries ih =>
    simp only [storeGlobals, get_bind_eq_ok, ofOption_bind_eq_ok] at run
    obtain ⟨v, found, run⟩ := run
    split at run
    next isCaptured =>
      simp only [regGimme_bind_eq_ok, emit_bind_eq_ok, regTakeitback_bind_eq_ok, Acx.setRs_rs,
        Acx.setRs_setRs, RegisterSet.takeitback_gimme, Acx.setRs_self] at run
      obtain ⟨_, ⟨_, ⟨_, run, rfl⟩, rfl⟩, rfl⟩ := run
      obtain ⟨rfl, rfl⟩ := ih run
      refine ⟨rfl, ?_⟩
      simp [capturedVars, found, isCaptured, storeLines]
    next free =>
      obtain ⟨rfl, rfl⟩ := ih run
      refine ⟨rfl, ?_⟩
      simp [capturedVars, found, free]

/-- The lines of main: before the captured globals are stored. -/
def mainOpen (off : Int) : List Insn :=
  [.global .main, .label .main, .mov .rbp .rsp, .comment "", .subImm .rsp off]

/-- What an accepted program's analysis is. -/
structure ProgramRun (prog : AstProgram) (off : Int) (st : Stab) (acx₁ acx' : Acx)
    (subsCode bodyCode code : List Insn) : Prop where
  globals : ∃ st₁ st₂, doImports stabNew prog.args = .ok st₁ ∧
    stabAddAllTypes st₁ prog.types = .ok st₂ ∧ stabAddAllDecls st₂ true prog.decls 0 = .ok (off, st)
  subs : SubRun (.subs prog.subprogs) (initialAcx.setSt st) acx₁ subsCode
  body : StmtRun (.stmt prog.body) { acx₁ with toplevel := true } acx' bodyCode
  code_eq : code = header ++ (subsCode ++ (mainOpen off ++
    ((capturedVars acx₁.st acx₁.st.innermost.vars.entries).flatMap (storeLines acx₁.rs) ++
      (bodyCode ++ exitCode))))

theorem analyze_run {prog : AstProgram} {acx' : Acx} {code : List Insn}
    (run : analyze prog = .ok (acx', code)) :
    ∃ off st acx₁ subsCode bodyCode, ProgramRun prog off st acx₁ acx' subsCode bodyCode code := by
  unfold analyze at run
  cases result : analyzeProgram prog initialAcx with
  | error s => simp [result] at run
  | ok r =>
    obtain ⟨u, acx, code'⟩ := r
    simp only [result, Except.ok.injEq, Prod.mk.injEq] at run
    obtain ⟨rfl, rfl⟩ := run
    simp only [analyzeProgram] at result
    rw [bind_eq_ok] at result
    obtain ⟨off, acx₁, _, _, opened, run, rfl⟩ := result
    simp only [openProgram, emit_bind_eq_ok, withStab_bind_eq_ok, except_bind_eq_ok,
      withStab_eq_ok] at opened
    obtain ⟨_, ⟨_, st₁, ⟨_, imports, pure₁⟩, _, st₂, ⟨_, types, pure₂⟩, st₃, decls, rfl, rfl⟩, rfl⟩ :=
      opened
    cases pure₁
    cases pure₂
    rw [bind_eq_ok] at run
    obtain ⟨_, acx₂, subsCode, _, subs, run, rfl⟩ := run
    simp only [mainCode, emit_bind_eq_ok, get_bind_eq_ok] at run
    obtain ⟨_, ⟨_, run, rfl⟩, rfl⟩ := run
    rw [bind_eq_ok] at run
    obtain ⟨_, acx₃, _, _, stored, run, rfl⟩ := run
    obtain ⟨rfl, rfl⟩ := storeGlobals_run stored
    simp only [modify_bind_eq_ok] at run
    rw [bind_eq_ok] at run
    obtain ⟨_, acx₄, bodyCode, _, body, last, rfl⟩ := run
    simp only [emit_eq_ok] at last
    obtain ⟨rfl, rfl⟩ := last
    refine ⟨off, _, acx₃, subsCode, bodyCode, ⟨_, _, imports, types, decls⟩,
      analyzeSubprogs_run _ subs, analyzeStmt_run _ body, ?_⟩
    simp [mainOpen]

end Dragon
