import Dragon.Codegen.Subprograms
import Dragon.Symbol.Scopes

/-! The scopes of the symbol table across a run of the analyzer. -/

set_option autoImplicit false

namespace Dragon

open Stab

theorem Acx.use_scopes (acx : Acx) (name : Name) (idx : Index) (v : StabVar) :
    SameScopes acx.st (acx.use name idx v).st := by
  unfold Acx.use
  split
  · exact ⟨rfl, rfl, by simp [Stab.setVar]⟩
  · exact .refl _

theorem PathRun.scopes {p : AstPath} {rv : Bool} {acx acx' : Acx} {v : StabVar}
    {lines : RegName → List Insn} (path : PathRun p rv acx v acx' lines) :
    SameScopes acx.st acx'.st := path.used ▸ acx.use_scopes ..

theorem Run.scopes {node : Node} {acx acx' : Acx} {results : List Resu} {code : List Insn}
    (run : Run node acx results acx' code) : SameScopes acx.st acx'.st := by
  induction run with
  | lit => exact .refl _
  | path path => exact path.scopes
  | deref path _ _ => exact path.scopes
  | idx path _ _ _ _ ih => exact path.scopes.trans ih
  | bin _ _ _ _ ih₁ ih₂ => exact ih₁.trans ih₂
  | un _ _ _ ih => exact ih
  | app _ ih => exact ih
  | magic _ _ _ ih => exact ih
  | call _ _ _ _ ih => exact ih
  | noActuals => exact .refl _
  | actual _ _ _ _ ih₁ ih₂ => exact ih₁.trans ih₂
  | wrote => exact .refl _
  | write _ _ _ ih₁ ih₂ => exact ih₁.trans ih₂
  | read_ => exact .refl _
  | read _ _ _ _ ih₁ ih₂ => exact ih₁.trans ih₂

theorem TargetRun.scopes {e : AstExpr} {acx acx' : Acx} (target : TargetRun e acx acx') :
    SameScopes acx.st acx'.st := by
  obtain ⟨b, rfl⟩ := target.assigned
  exact .refl _

theorem StmtRun.scopes {node : StmtNode} {acx acx' : Acx} {code : List Insn}
    (run : StmtRun node acx acx' code) : SameScopes acx.st acx'.st := by
  induction run with
  | null => exact .refl _
  | assign left target right _ first second =>
    subst first second
    exact (left.scopes.trans target.scopes).trans right.scopes
  | foor first last _ _ path _ _ back back' leave ih =>
    subst back back'
    exact ((first.scopes.trans last.scopes).trans path.scopes).trans (leave_enter ih.extends_ leave)
  | ite test _ _ _ ih₁ ih₂ => exact (test.scopes.trans ih₁).trans ih₂
  | proc call => exact call.scopes
  | stmts _ ih => exact ih
  | wdo test _ _ ih => exact test.scopes.trans ih
  | nil => exact .refl _
  | cons _ _ ih₁ ih₂ => exact ih₁.trans ih₂

theorem Opened.extends_ {st st' : Stab} {head : AstSig} {name : Name} {types : List AstTypeDecl}
    {decls : List AstDecls} {retslot : Index} {off : Int}
    (opened : Opened st head name types decls retslot off st') : Extends (stabEnter st) st' := by
  obtain ⟨st₁, off₂, st₂, off₃, st₃, retty, st₄, types, formals, locals, result, added⟩ := opened
  exact (((stabAddAllTypes_extends types).trans (stabAddAllDecls_extends formals)).trans
    (stabAddAllDecls_extends locals)).trans
    ((stabResolveRetty_scopes result).extends_.trans (stabAddVar_extends added))

-- A subprogram leaves the scopes as they were; a list of them extends the innermost one.
theorem SubRun.scopes {node : SubNode} {acx acx' : Acx} {code : List Insn}
    (run : SubRun node acx acx' code) :
    match node with
    | .sub _ => SameScopes acx.st acx'.st
    | .subs _ => Extends acx.st acx'.st := by
  induction run with
  | sub opened _ own leave ih =>
    exact leave_enter ((opened.extends_.trans ih).trans own.run.scopes.extends_) leave
  | nil => exact .refl _
  | cons added _ _ ih₁ ih₂ =>
    exact ((stabAddFunc_extends added).trans ih₁.extends_).trans ih₂

/-! ## Bindings stay indices of the arena over a whole run -/

theorem Stab.SameScopes.valid {st st' : Stab} (same : SameScopes st st') (valid : st.Valid) :
    st'.Valid := same.extends_.valid valid

theorem SubRun.valid {node : SubNode} {acx acx' : Acx} {code : List Insn}
    (run : SubRun node acx acx' code) (valid : acx.st.Valid) : acx'.st.Valid := by
  have scopes := run.scopes
  cases node with
  | sub d => exact scopes.valid valid
  | subs subprogs => exact scopes.valid valid

theorem doImports_valid {args : List Name} {st st' : Stab} (imports : doImports st args = .ok st')
    (valid : st.Valid) : st'.Valid :=
  doImports_preserves (fun st _ before =>
    ((sameScopes_pushType st _).extends_.trans (extends_insertFunc ..)).valid before) valid imports

theorem ProgramRun.valid {prog : AstProgram} {off : Int} {st : Stab} {acx₁ acx' : Acx}
    {subsCode bodyCode code : List Insn}
    (run : ProgramRun prog off st acx₁ acx' subsCode bodyCode code) :
    st.Valid ∧ acx₁.st.Valid ∧ acx'.st.Valid := by
  obtain ⟨st₁, st₂, imports, types, decls⟩ := run.globals
  have valid₀ : st.Valid := (stabAddAllDecls_extends decls).valid
    ((stabAddAllTypes_extends types).valid (doImports_valid imports valid_stabNew))
  have valid₁ := run.subs.valid valid₀
  exact ⟨valid₀, valid₁, run.body.scopes.valid valid₁⟩

/-! ## Declaring a subprogram -/

/-- Resolution from one table to another, the function names other than one. -/
def ScopeKept (st st' : Stab) (f : Name) : Prop :=
  (∀ n, stabResolveVar st' n = stabResolveVar st n) ∧
  (∀ n, stabResolveTypeName st' n = stabResolveTypeName st n) ∧
  ∀ n, n ≠ f → stabResolveFunc st' n = stabResolveFunc st n

/-- stab_add_func of a declaration followed by analyze_subprog of it, as the loops over
subprograms call them. -/
def declare (d : AstSubdecl) (acx : Acx) : Except Stop (Acx × List Insn) := do
  let st ← stabAddFunc acx.st d.name d.head
  let (_, acx', code) ← analyzeSubprog d (acx.setSt st)
  return (acx', code)

theorem declare_eq_ok {d : AstSubdecl} {acx acx' : Acx} {code : List Insn} :
    declare d acx = .ok (acx', code) ↔ ∃ st, stabAddFunc acx.st d.name d.head = .ok st ∧
      analyzeSubprog d (acx.setSt st) = .ok ((), acx', code) := by
  simp only [declare, except_bind_eq_ok]
  constructor
  · rintro ⟨st, added, ⟨_, acx₁, code₁⟩, accepted, pure⟩
    cases pure
    exact ⟨st, added, accepted⟩
  · rintro ⟨st, added, accepted⟩
    exact ⟨st, added, _, accepted, rfl⟩

theorem scopeKept_insertFunc (st : Stab) (f : Name) (id : Index) :
    ScopeKept st (st.insertFunc f id) f := by
  refine ⟨fun _ => rfl, fun _ => rfl, ?_⟩
  intro n other
  simp only [stabResolveFunc, Stab.chain, insertFunc, resolveIn]
  rw [NameTable.lookup_insert_of_ne _ _ other]

theorem Stab.SameScopes.kept {st₁ st₂ st₃ : Stab} {f : Name} (same : SameScopes st₁ st₂)
    (kept : ScopeKept st₂ st₃ f) : ScopeKept st₁ st₃ f := by
  simpa only [ScopeKept, stabResolveVar, stabResolveTypeName, stabResolveFunc, same.chain] using kept

theorem ScopeKept.same {st₁ st₂ st₃ : Stab} {f : Name} (kept : ScopeKept st₁ st₂ f)
    (same : SameScopes st₂ st₃) : ScopeKept st₁ st₃ f := by
  simpa only [ScopeKept, stabResolveVar, stabResolveTypeName, stabResolveFunc, same.chain] using kept

theorem resolveVar_formal {d : AstSubdecl} {acx acx' : Acx} {code : List Insn}
    (declared : declare d acx = .ok (acx', code)) {formal : Name × AstType}
    (member : formal ∈ d.head.formals) :
    acx.st.vars.length ≤ stabResolveVar acx'.st formal.1 := by
  obtain ⟨st, added, accepted⟩ := declare_eq_ok.mp declared
  obtain ⟨-, type, st₁, resolved, rfl⟩ := stabAddFunc_eq_ok.mp added
  have bound := (stabResolveSig_extends resolved).2.2 formal member
  have same : SameScopes _ acx'.st := (analyzeSubprog_run d accepted).scopes
  have kept : acx'.st.innermost.vars.lookup formal.1 = st₁.innermost.vars.lookup formal.1 := by
    rw [same.innermost]
    rfl
  rw [stabResolveVar_innermost (by simp only [kept, resolveFailure]; omega), kept]
  exact bound

theorem not_scopeKept_of_formal {d : AstSubdecl} {acx acx' : Acx} {code : List Insn}
    (valid : acx.st.Valid) (declared : declare d acx = .ok (acx', code))
    (some_ : d.head.formals ≠ []) : ¬ ScopeKept acx.st acx'.st d.name := by
  intro kept
  obtain ⟨formal, member⟩ := List.exists_mem_of_ne_nil _ some_
  have fresh := resolveVar_formal declared member
  have old := valid.resolveVar_lt formal.1
  rw [kept.1] at fresh
  omega

/-- A declaration keeps the scope it stands in exactly when it has no formals: they are entered
into that scope along with the signature. -/
theorem declared_scopeKept_iff (d : AstSubdecl) (acx acx' : Acx) (code : List Insn)
    (valid : acx.st.Valid) (declared : declare d acx = .ok (acx', code)) :
    ScopeKept acx.st acx'.st d.name ↔ d.head.formals = [] := by
  constructor
  · intro kept
    by_contra some_
    exact not_scopeKept_of_formal valid declared some_ kept
  · intro none
    obtain ⟨st, added, accepted⟩ := declare_eq_ok.mp declared
    obtain ⟨-, type, st₁, resolved, rfl⟩ := stabAddFunc_eq_ok.mp added
    have same : SameScopes _ acx'.st := (analyzeSubprog_run d accepted).scopes
    exact (((stabResolveSig_extends resolved).2.1 none).kept (scopeKept_insertFunc ..)).same same

-- procedure boo(a: integer); var x: integer; begin end
def booDecl : AstSubdecl :=
  .mk ⟨.procedure, [⟨["a"], .integer⟩], none⟩ "boo" [⟨["x"], .integer⟩] [] [] .null

theorem boo_declared : ∃ acx' code, declare booDecl initialAcx = .ok (acx', code) := by
  have accepted : (declare booDecl initialAcx).toOption.isSome = true := by decide +kernel
  obtain ⟨⟨acx', code⟩, result⟩ := exists_ok_of_isSome accepted
  exact ⟨acx', code, result⟩

theorem boo_scopeKept_iff : ∃ acx' code, declare booDecl initialAcx = .ok (acx', code) ∧
    (ScopeKept initialAcx.st acx'.st "boo" ↔ booDecl.head.formals = []) := by
  obtain ⟨acx', code, declared⟩ := boo_declared
  exact ⟨acx', code, declared,
    declared_scopeKept_iff booDecl initialAcx acx' code valid_stabNew declared⟩

-- Not every declaration keeps its scope.
theorem not_forall_scopeKept : ¬ ∀ (d : AstSubdecl) (acx acx' : Acx) (code : List Insn),
    acx.st.Valid → declare d acx = .ok (acx', code) → ScopeKept acx.st acx'.st d.name := by
  intro claim
  obtain ⟨acx', code, declared⟩ := boo_declared
  exact not_scopeKept_of_formal valid_stabNew declared (by decide)
    (claim booDecl initialAcx acx' code valid_stabNew declared)

end Dragon
