import Dragon.Codegen.Captures
import Dragon.Symbol.Usable

/-! Calls of procedures in places that use a value (rule 6.1).

No function checks this rule. A call of a procedure has the type void, and most
places compare the type of an expression with another one; two of them let void
pass.
-/

set_option autoImplicit false

namespace Dragon

open Analysis Stab

/-! ## Static types -/

/-- The type of a call, as the function table has it. -/
def callResult (st : Stab) (p : AstPath) : Option Index :=
  (calleeOf st p).bind fun t =>
    match t.magic, t.ty with
    | some _, _ => some voidTypeIdx
    | none, .func _ _ retty => some retty
    | none, _ => none

def pathType (st : Stab) (p : AstPath) : Option Index :=
  (stabVar st (stabResolveVar st p.first)).map StabVar.type

/-- The type of an expression by the tables. -/
def exprType (st : Stab) : AstExpr → Option Index
  | .app p _ => callResult st p
  | .bin op left _ => if isRelop op then some booleanTypeIdx else exprType st left
  | .deref (.path p) =>
      ((pathType st p).bind (stabType st)).bind fun t =>
        match t.ty with
        | .pointer target => some target
        | _ => none
  | .deref _ => none
  | .idx p _ =>
      ((pathType st p).bind (stabType st)).bind fun t =>
        match t.ty with
        | .array _ _ elt => some elt
        | _ => none
  | .lit _ => some integerTypeIdx
  | .path p => pathType st p
  | .un _ e => exprType st e
  | .addrof _ => none

/-- A call without a result. stab_resolve_type makes void of the missing return type of a
procedure, and a magic call has the type void. -/
def AstExpr.CallsProcedure (st : Stab) : AstExpr → Prop
  | .app p _ => callResult st p = some voidTypeIdx
  | _ => False

instance (st : Stab) (e : AstExpr) : Decidable (e.CallsProcedure st) :=
  match e with
  | .app p _ => inferInstanceAs (Decidable (callResult st p = some voidTypeIdx))
  | .bin .. | .deref _ | .idx .. | .lit _ | .path _ | .un .. | .addrof _ =>
      inferInstanceAs (Decidable False)

/-- A return type of the grammar. -/
def AstType.Standard : AstType → Prop
  | .integer | .real | .string | .boolean | .char => True
  | _ => False

theorem stabAddFunc_callResult {st st' : Stab} {name : Name} {sig : AstSig}
    (standard : ∀ t, sig.retty = some t → t.Standard) (added : stabAddFunc st name sig = .ok st') :
    callResult st' (astPath name) = some voidTypeIdx ↔ sig.retty = none := by
  obtain ⟨-, type, st₁, resolved, rfl⟩ := stabAddFunc_eq_ok.mp added
  simp only [stabResolveSig, except_bind_eq_ok] at resolved
  obtain ⟨⟨retty, st₂⟩, result, ⟨args, st₃⟩, -, pushed⟩ := resolved
  cases pushed
  have known : (st₃.types.length : Int) ≠ resolveFailure := by
    unfold resolveFailure
    omega
  have bound : stabResolveFunc ((st₃.pushType ⟨.func sig.type args retty, abiClosureSize, none⟩).2.insertFunc
      name st₃.types.length) name = st₃.types.length := by
    simp only [stabResolveFunc, Stab.chain, Stab.insertFunc, resolveIn, NameTable.lookup_insert_self]
    exact if_neg known
  have callee : callResult ((st₃.pushType ⟨.func sig.type args retty, abiClosureSize, none⟩).2.insertFunc
      name st₃.types.length) (astPath name) = some retty := by
    simp only [callResult, calleeOf, astPath, bound, ne_eq, known, not_false_eq_true, and_self, if_true]
    simp [stabType, arenaGet, Stab.insertFunc, Stab.pushType]
  change callResult ((st₃.pushType _).2.insertFunc name st₃.types.length) (astPath name) = _ ↔ _
  rw [callee, Option.some.injEq]
  cases retty_eq : sig.retty with
  | none =>
    rw [retty_eq] at result
    cases result
    exact iff_of_true rfl rfl
  | some t =>
    rw [retty_eq] at result
    have kind := standard t retty_eq
    apply iff_of_false
    · cases t <;> cases kind <;> cases result <;> decide
    · exact Option.some_ne_none t

/-- Two tables that differ in captures only. -/
structure SameTypes (st st' : Stab) : Prop where
  types : st'.types = st.types
  chain : st'.chain = st.chain
  vars : ∀ i, (stabVar st' i).map StabVar.type = (stabVar st i).map StabVar.type

namespace SameTypes

variable {st st₁ st₂ : Stab}

theorem refl (st : Stab) : SameTypes st st := ⟨rfl, rfl, fun _ => rfl⟩

theorem trans (first : SameTypes st st₁) (second : SameTypes st₁ st₂) : SameTypes st st₂ :=
  ⟨second.types.trans first.types, second.chain.trans first.chain,
    fun i => (second.vars i).trans (first.vars i)⟩

theorem stabType (same : SameTypes st st₁) (i : Index) : stabType st₁ i = Dragon.stabType st i := by
  unfold Dragon.stabType
  rw [same.types]

theorem callResult (same : SameTypes st st₁) (p : AstPath) :
    callResult st₁ p = Dragon.callResult st p := by
  unfold Dragon.callResult calleeOf stabResolveFunc
  rw [same.chain, same.stabType]

theorem pathType (same : SameTypes st st₁) (p : AstPath) : pathType st₁ p = Dragon.pathType st p := by
  unfold Dragon.pathType stabResolveVar
  rw [same.chain, same.vars]

theorem exprType (same : SameTypes st st₁) : ∀ e : AstExpr, exprType st₁ e = Dragon.exprType st e
  | .app p _ => same.callResult p
  | .bin op left _ => by
      simp only [Dragon.exprType, same.exprType left]
  | .deref (.path p) => by
      simp only [Dragon.exprType, same.pathType, funext same.stabType]
  | .deref (.app ..) | .deref (.bin ..) | .deref (.deref _) | .deref (.idx ..) | .deref (.lit _)
  | .deref (.un ..) | .deref (.addrof _) => rfl
  | .idx p _ => by
      simp only [Dragon.exprType, same.pathType, funext same.stabType]
  | .lit _ => rfl
  | .path p => same.pathType p
  | .un _ e => by
      simp only [Dragon.exprType, same.exprType e]
  | .addrof _ => rfl

end SameTypes

theorem Acx.use_sameTypes {acx : Acx} {name : Name} {v : StabVar}
    (found : stabVar acx.st (stabResolveVar acx.st name) = some v) :
    SameTypes acx.st (acx.use name (stabResolveVar acx.st name) v).st := by
  unfold Acx.use
  split
  · refine ⟨rfl, rfl, ?_⟩
    intro i
    rw [stabVar_setVar (arenaGet_lt found).1 found]
    split
    next same =>
      rw [same, found]
      rfl
    next => rfl
  · exact .refl _

theorem PathRun.sameTypes {p : AstPath} {rv : Bool} {acx acx' : Acx} {v : StabVar}
    {lines : RegName → List Insn} (path : PathRun p rv acx v acx' lines) :
    SameTypes acx.st acx'.st := path.used ▸ Acx.use_sameTypes path.found

theorem Run.sameTypes {node : Node} {acx acx' : Acx} {results : List Resu} {code : List Insn}
    (run : Run node acx results acx' code) : SameTypes acx.st acx'.st := by
  induction run with
  | lit => exact .refl _
  | path path => exact path.sameTypes
  | deref path _ _ => exact path.sameTypes
  | idx path _ _ _ _ ih => exact path.sameTypes.trans ih
  | bin _ _ _ _ ih₁ ih₂ => exact ih₁.trans ih₂
  | un _ _ _ ih => exact ih
  | app _ ih => exact ih
  | magic _ _ _ ih => exact ih
  | call _ _ _ _ ih => exact ih
  | noActuals => exact .refl _
  | actual _ _ _ _ ih₁ ih₂ => exact ih₁.trans ih₂
  | wrote => exact .refl _
  | write _ _ _ ih₁ ih₂ => exact ih₁.trans ih₂
  | read_ => exact .refl _
  | read _ _ _ _ ih₁ ih₂ => exact ih₁.trans ih₂

def Node.Typed (st : Stab) : Node → List Resu → Prop
  | .expr e _, results => ∃ r, results = [r] ∧ exprType st e = some r.type
  | .call p _, results => ∃ r, results = [r] ∧ callResult st p = some r.type
  | _, _ => True

theorem PathRun.pathType {p : AstPath} {rv : Bool} {acx acx' : Acx} {v : StabVar}
    {lines : RegName → List Insn} (path : PathRun p rv acx v acx' lines) :
    pathType acx.st p = some v.type := by
  rw [Dragon.pathType, path.found]
  rfl

theorem Run.typed_node {node : Node} {acx acx' : Acx} {results : List Resu} {code : List Insn}
    (run : Run node acx results acx' code) : node.Typed acx.st results := by
  induction run with
  | lit => exact ⟨_, rfl, rfl⟩
  | path path => exact ⟨_, rfl, path.pathType⟩
  | deref path found pointer =>
    refine ⟨_, rfl, ?_⟩
    rw [path.sameTypes.stabType] at found
    simp [exprType, path.pathType, found, pointer]
  | idx path found array _ _ _ =>
    refine ⟨_, rfl, ?_⟩
    rw [path.sameTypes.stabType] at found
    simp [exprType, path.pathType, found, array]
  | bin _ _ _ _ ih₁ _ =>
    obtain ⟨r, single, type⟩ := ih₁
    cases single
    refine ⟨_, rfl, ?_⟩
    simp only [exprType]
    split
    · rfl
    · exact type
  | un _ _ _ ih =>
    obtain ⟨r, single, type⟩ := ih
    cases single
    exact ⟨_, rfl, type⟩
  | app _ ih => exact ih
  | magic callee magic _ _ =>
    refine ⟨_, rfl, ?_⟩
    simp [callResult, callee, magic, magicResu]
  | call callee magic func _ _ =>
    refine ⟨_, rfl, ?_⟩
    simp [callResult, callee, magic, func]
  | noActuals => trivial
  | actual => trivial
  | wrote => trivial
  | write => trivial
  | read_ => trivial
  | read => trivial

theorem Run.typed {e : AstExpr} {rv : Bool} {acx acx' : Acx} {r : Resu} {code : List Insn}
    (run : Run (.expr e rv) acx [r] acx' code) : exprType acx.st e = some r.type := by
  obtain ⟨r', single, type⟩ := run.typed_node
  cases single
  exact type

theorem AstExpr.CallsProcedure.exprType {st : Stab} {e : AstExpr} (calls : e.CallsProcedure st) :
    exprType st e = some voidTypeIdx := by
  cases e with
  | app p args => exact calls
  | _ => cases calls

theorem Run.not_callsProcedure {e : AstExpr} {acx acx₁ acx' : Acx} {r : Resu} {code : List Insn}
    (run : Run (.expr e true) acx₁ [r] acx' code) (same : SameTypes acx.st acx₁.st)
    (other : r.type ≠ voidTypeIdx) : ¬ e.CallsProcedure acx.st := by
  intro calls
  have type := run.typed
  rw [same.exprType, calls.exprType] at type
  exact other (Option.some.inj type).symm

/-! ## The places that use a value -/

/-- The expressions whose values a statement, an operator, an index or a call uses. -/
def Moment.values (m : Moment) : List AstExpr :=
  match m.call with
  | .expr (.bin _ left right) _ => [left, right]
  | .expr (.un _ e) _ => [e]
  | .expr (.idx _ e) _ => [e]
  | .call _ args => args
  | .stmt (.assign _ rvalue) => [rvalue]
  | .stmt (.foor _ start finish _) => [start, finish]
  | .stmt (.ite cond _ _) => [cond]
  | .stmt (.wdo cond _) => [cond]
  | _ => []

/-- No value used in a run is that of a procedure. -/
def NoProcedureValues (prog : AstProgram) : Prop :=
  ∀ m ∈ prog.trace, ∀ e ∈ m.values, ¬ e.CallsProcedure m.acx.st

/-- The two places where void passes: the actual arguments, and the operands of a binary
operation that are both of type void. -/
def Moment.Unchecked (m : Moment) : Prop :=
  match m.call with
  | .call _ args => ∃ e ∈ args, e.CallsProcedure m.acx.st
  | .expr (.bin _ left right) _ =>
      exprType m.acx.st left = some voidTypeIdx ∧ exprType m.acx.st right = some voidTypeIdx ∧
        (left.CallsProcedure m.acx.st ∨ right.CallsProcedure m.acx.st)
  | _ => False

instance (m : Moment) : Decidable m.Unchecked :=
  match m with
  | ⟨.call _ args, acx⟩ => inferInstanceAs (Decidable (∃ e ∈ args, e.CallsProcedure acx.st))
  | ⟨.expr (.bin _ left right) _, acx⟩ =>
      inferInstanceAs (Decidable (exprType acx.st left = some voidTypeIdx ∧
        exprType acx.st right = some voidTypeIdx ∧
          (left.CallsProcedure acx.st ∨ right.CallsProcedure acx.st)))
  | ⟨.expr (.app ..) _, _⟩ | ⟨.expr (.deref _) _, _⟩ | ⟨.expr (.idx ..) _, _⟩
  | ⟨.expr (.lit _) _, _⟩ | ⟨.expr (.path _) _, _⟩ | ⟨.expr (.un ..) _, _⟩
  | ⟨.expr (.addrof _) _, _⟩ | ⟨.program _, _⟩ | ⟨.sub _, _⟩ | ⟨.declare _, _⟩
  | ⟨.prologue _, _⟩ | ⟨.epilogue .., _⟩ | ⟨.globals, _⟩ | ⟨.stmt _, _⟩ | ⟨.path .., _⟩
  | ⟨.address .., _⟩ | ⟨.target _, _⟩ | ⟨.typesEq .., _⟩ | ⟨.finished, _⟩ =>
      inferInstanceAs (Decidable False)

theorem Moment.Unchecked.exists_value {m : Moment} (unchecked : m.Unchecked) :
    ∃ e ∈ m.values, e.CallsProcedure m.acx.st := by
  obtain ⟨call, acx⟩ := m
  cases call with
  | call p args => exact unchecked
  | expr e rv =>
    cases e with
    | bin op left right =>
      obtain ⟨-, -, calls | calls⟩ := unchecked
      · exact ⟨left, List.mem_cons_self, calls⟩
      · exact ⟨right, List.mem_cons_of_mem _ List.mem_cons_self, calls⟩
    | _ => cases unchecked
  | _ => cases unchecked

theorem boolean_ne_void : booleanTypeIdx ≠ voidTypeIdx := by decide

theorem integer_ne_void : integerTypeIdx ≠ voidTypeIdx := by decide

theorem stabTypesEq_void {st : Stab} (sound : st.Sound) {b : Index} :
    stabTypesEq st voidTypeIdx b ≠ .ok true := by
  -- the comparison of void with any type is not true: it is false, or stops at two voids
  unfold stabTypesEq stabTypesEqFuel
  rw [sound.voidEntry]
  cases stabType st b with
  | none => simp
  | some t => cases shape : t.ty <;> simp [shape]

theorem Moment.Returned.values {m : Moment} (sound : m.acx.st.Sound) (returned : m.Returned)
    (checked : ¬ m.Unchecked) : ∀ e ∈ m.values, ¬ e.CallsProcedure m.acx.st := by
  obtain ⟨call, acx⟩ := m
  unfold Moment.values
  dsimp only at sound ⊢
  split
  next op left right rv =>
    obtain ⟨⟨r, acx', code⟩, run⟩ := returned
    have run := analyzeExpr_run _ run
    cases run with
    | bin first second same _ =>
      have type₁ := first.typed
      have type₂ := second.typed
      rw [first.sameTypes.exprType] at type₂
      have both : ∀ e ∈ [left, right], e.CallsProcedure acx.st →
          exprType acx.st left = some voidTypeIdx ∧ exprType acx.st right = some voidTypeIdx := by
        rw [type₁, type₂, same, List.forall_mem_cons, List.forall_mem_singleton]
        constructor
        · intro calls
          rw [← same, ← type₁, calls.exprType]
          exact ⟨rfl, rfl⟩
        · intro calls
          rw [← type₂, calls.exprType]
          exact ⟨rfl, rfl⟩
      intro e member calls
      obtain ⟨void₁, void₂⟩ := both e member calls
      apply checked
      refine ⟨void₁, void₂, ?_⟩
      rcases List.mem_pair.mp member with rfl | rfl
      · exact .inl calls
      · exact .inr calls
  next op e rv =>
    obtain ⟨⟨r, acx', code⟩, run⟩ := returned
    have run := analyzeExpr_run _ run
    rw [List.forall_mem_singleton]
    cases run with
    | un operand _ boolean =>
      apply operand.not_callsProcedure (.refl _)
      rw [boolean]
      exact boolean_ne_void
  next p e rv =>
    obtain ⟨⟨r, acx', code⟩, run⟩ := returned
    have run := analyzeExpr_run _ run
    rw [List.forall_mem_singleton]
    cases run with
    | idx path _ _ index integer =>
      apply index.not_callsProcedure path.sameTypes
      rw [integer]
      exact integer_ne_void
  next p args =>
    intro e member calls
    exact checked ⟨e, member, calls⟩
  next lvalue rvalue =>
    obtain ⟨⟨r, acx', code⟩, run⟩ := returned
    have run := analyzeStmt_run _ run
    rw [List.forall_mem_singleton]
    cases run with
    | assign left target right same _ _ =>
      obtain ⟨b, rfl⟩ := target.assigned
      apply right.not_callsProcedure left.sameTypes
      intro void
      rw [void] at same
      -- the comparison is made in a later context of the same run
      exact stabTypesEq_void (right.steps.sound (left.steps.sound sound)) same
  next id start finish body =>
    obtain ⟨⟨r, acx', code⟩, run⟩ := returned
    have run := analyzeStmt_run _ run
    rw [List.forall_mem_cons, List.forall_mem_singleton]
    cases run with
    | foor first last startInteger finishInteger _ _ _ _ _ _ =>
      constructor
      · apply first.not_callsProcedure (.refl _)
        rw [startInteger]
        exact integer_ne_void
      · apply last.not_callsProcedure first.sameTypes
        rw [finishInteger]
        exact integer_ne_void
  next cond thenn elze =>
    obtain ⟨⟨r, acx', code⟩, run⟩ := returned
    have run := analyzeStmt_run _ run
    rw [List.forall_mem_singleton]
    cases run with
    | ite test boolean _ _ =>
      apply test.not_callsProcedure (.refl _)
      rw [boolean]
      exact boolean_ne_void
  next cond body =>
    obtain ⟨⟨r, acx', code⟩, run⟩ := returned
    have run := analyzeStmt_run _ run
    rw [List.forall_mem_singleton]
    cases run with
    | wdo test boolean _ =>
      have labels : SameTypes acx.st acx.afterLabels.st := .refl _
      apply test.not_callsProcedure labels
      rw [boolean]
      exact boolean_ne_void
  next => exact fun e member => absurd member List.not_mem_nil

/-- An accepted program uses no value of a procedure exactly when it does not at the unchecked
places. -/
theorem noProcedureValues_iff (prog : AstProgram) (acx : Acx) (code : List Insn)
    (accepted : analyze prog = .ok (acx, code)) :
    NoProcedureValues prog ↔ ∀ m ∈ prog.trace, ¬ m.Unchecked := by
  constructor
  · intro none_ m member unchecked
    obtain ⟨e, value, calls⟩ := unchecked.exists_value
    exact none_ m member e value calls
  · intro checked m member
    have returned := (ends_of_accepted accepted).returned m member
    exact returned.values (sound_of_mem member) (checked m member)

-- procedure q; begin end
def silentDecl : AstSubdecl := .mk ⟨.procedure, [], none⟩ "q" [] [] [] .null

-- procedure r(x: integer); begin end
def takingDecl : AstSubdecl :=
  .mk ⟨.procedure, [⟨["x"], .integer⟩], none⟩ "r" [] [] [] .null

-- A main program that calls r with 1 + 2.
def passedSum : AstProgram :=
  ⟨[], [], [silentDecl, takingDecl], [], .proc (astPath "r") [.bin .plus (.lit "1") (.lit "2")]⟩

theorem passedSum_noProcedureValues : NoProcedureValues passedSum := by
  have accepts : (analyze passedSum).toOption.isSome = true := by
    decide +kernel
  obtain ⟨⟨acx, code⟩, result⟩ := exists_ok_of_isSome accepts
  apply (noProcedureValues_iff passedSum acx code result).mpr
  decide +kernel

-- A main program that calls r with the value of q.
def passedProcedure : AstProgram :=
  ⟨[], [], [silentDecl, takingDecl], [], .proc (astPath "r") [.app (astPath "q") []]⟩

theorem not_forall_noProcedureValues : ¬ ∀ (prog : AstProgram) (acx : Acx) (code : List Insn),
    analyze prog = .ok (acx, code) → NoProcedureValues prog := by
  intro all
  have accepts : (analyze passedProcedure).toOption.isSome = true := by
    decide +kernel
  have uses : ∃ m ∈ passedProcedure.trace, ∃ e ∈ m.values, e.CallsProcedure m.acx.st := by
    decide +kernel
  obtain ⟨⟨acx, code⟩, result⟩ := exists_ok_of_isSome accepts
  obtain ⟨m, member, e, value, calls⟩ := uses
  exact all passedProcedure acx code result m member e value calls

end Dragon
