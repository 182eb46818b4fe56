import Dragon.Codegen.Procedures
import Dragon.Codegen.Registers
import Dragon.Codegen.Reports

/-! Internal failures of the analyzer.

A program of the grammar makes the analyzer fail at seven kinds of calls: a type
is declared under a name that has been freed, a dotted name is called, a
declaration or a path comes to an undeclared type, types are compared that can
not be, an operand of an undeclared type is described, an assignment through a
pointer is checked, and the byte of no register is taken. At every other call it
returns or ends in span_err.
-/

set_option autoImplicit false

namespace Dragon

open Analysis Stab

/-! ## The grammar -/

mutual

/-- The productions of expression, without @. -/
def AstExpr.written : AstExpr → Bool
  | .app _ args => argsWritten args
  | .bin _ left right => left.written && right.written
  | .deref (.path _) => true
  | .idx _ e | .un _ e => e.written
  | .lit _ | .path _ => true
  | .deref _ | .addrof _ => false

def argsWritten : List AstExpr → Bool
  | [] => true
  | e :: args => e.written && argsWritten args

end

mutual

def AstStmt.written : AstStmt → Bool
  | .null => true
  | .assign lvalue rvalue => isLvalue lvalue && (lvalue.written && rvalue.written)
  | .foor _ start finish body => start.written && (finish.written && body.written)
  | .ite cond thenn elze => cond.written && (thenn.written && elze.written)
  | .proc _ args => argsWritten args
  | .stmts body => stmtsWritten body
  | .wdo cond body => cond.written && body.written

def stmtsWritten : List AstStmt → Bool
  | [] => true
  | s :: body => s.written && stmtsWritten body

end

mutual

def AstSubdecl.written : AstSubdecl → Bool
  | .mk head _ decls subprogs types body =>
      head.written && (types.all AstTypeDecl.written && (decls.all AstDecls.written &&
        (subprogsWritten subprogs && body.written)))

def subprogsWritten : List AstSubdecl → Bool
  | [] => true
  | d :: subprogs => d.head.written && (d.written && subprogsWritten subprogs)

end

def AstProgram.written (prog : AstProgram) : Bool :=
  prog.types.all AstTypeDecl.written && (prog.decls.all AstDecls.written &&
    (subprogsWritten prog.subprogs && prog.body.written))

/-! ## Where a run can fail -/

section

variable (typeOf : Index → Option StabType)

/-- Looking for a field of a record reads declared types up to that field, and its target when it is
a pointer. The rest is about the type that is found. -/
def FieldTyped (n : Name) (rest : StabResolvedType → Prop) : List (Name × Index) → Prop
  | [] => True
  | (name, type) :: fields => ∃ t, typeOf type = some t ∧
      if name = n then
        match t.ty with
        | .pointer target => ∃ u, typeOf target = some u ∧ rest u.ty
        | ty => rest ty
      else FieldTyped n rest fields

/-- Every field that is looked for on a path; the last component is not. -/
def WalkTyped : List Name → StabResolvedType → Prop
  | n :: m :: names, .record fields => FieldTyped typeOf n (WalkTyped (m :: names)) fields
  | _, _ => True

end

/-- The types read for a path are declared. -/
def PathTyped (st : Stab) (p : AstPath) : Prop :=
  ∀ v, stabVar st (stabResolveVar st p.first) = some v →
    ∃ t, stabType st v.type = some t ∧ WalkTyped (stabType st) p.components t.ty

/-- The value of an expression is in no register: its leftmost part is a call of a magic subprogram. -/
def AstExpr.Blank (st : Stab) : AstExpr → Prop
  | .app p _ => ∃ t, calleeOf st p = some t ∧ t.magic.isSome = true
  | .bin _ left _ => left.Blank st
  | .idx _ e | .un _ e => e.Blank st
  | .deref _ | .lit _ | .path _ | .addrof _ => False

/-- A comparison whose operands are analyzed and of one type, the right one in no register. -/
structure ComparesBlank (op : Token) (left right : AstExpr) (acx : Acx) : Prop where
  relop : isRelop op = true
  blank : right.Blank acx.st
  types : exprType acx.st left = exprType acx.st right
  returns : (analyzeExpr left true >>= fun _ => analyzeExpr right true : Analysis Resu).Returns acx

/-- The description of two operands that differ comes to a type that is not in the table. -/
structure DescribesUnknown (left right : AstExpr) (acx : Acx) : Prop where
  types : exprType acx.st left ≠ exprType acx.st right
  unknown : ∃ e ∈ [left, right], (exprType acx.st e).bind (stabType acx.st) = none
  returns : (analyzeExpr left true >>= fun _ => analyzeExpr right true : Analysis Resu).Returns acx

/-- An assignment through a pointer is not checked in the main program, and in a function it is
refused when the pointer is not local. -/
def Acx.Passes (acx : Acx) (p : AstPath) : Prop :=
  acx.toplevel = true ∨ (acx.currentFuncType = .function ∧ stabHasLocalVar acx.st p.first = false)

/-- What a call must meet to return or to end in span_err. -/
def Moment.Ends (m : Moment) : Prop :=
  match m.call with
  | .declare (.type t) => t.Named m.acx.st
  | .declare (.decls d _) => d.Typed m.acx.st
  | .call p _ => p.rest = []
  | .path p _ => PathTyped m.acx.st p
  | .target (.deref (.path p)) => m.acx.Passes p
  | .typesEq a b => Comparable m.acx.st a b
  | .expr (.bin op left right) _ =>
      ¬ ComparesBlank op left right m.acx ∧ ¬ DescribesUnknown left right m.acx
  | _ => True

/-! ## Verdicts -/

/-- A step returns or ends in span_err exactly when each of its calls does. -/
structure Judged {α : Type} (x : Analysis α) (t : Tracer) (acx : Acx) : Prop where
  verdict : Reports x acx ↔ ∀ m ∈ t acx, m.Ends

theorem Follows.readable {α : Type} {x : Analysis α} {t : Tracer} {acx acx' : Acx} {a : α}
    {code : List Insn} (follows : Follows x t acx) (readable : acx.st.Readable)
    (run : x acx = .ok (a, acx', code)) : acx'.st.Readable :=
  StabSteps.readable (follows.ended a acx' code run).steps readable

namespace Judged

variable {α β : Type} {x y : Analysis α} {f : α → Analysis β} {t t' tx : Tracer} {tf : α → Tracer}
  {acx acx' : Acx} {a : α} {code : List Insn} {c : Call}

theorem congr (same : t acx = t' acx) (judged : Judged x t acx) : Judged x t' acx :=
  ⟨same ▸ judged.verdict⟩

theorem of_eq (same : y acx = x acx) (judged : Judged x t acx) : Judged y t acx := by
  constructor
  unfold Reports
  rw [same]
  exact judged.verdict

theorem silent (reports : Reports x acx) : Judged x quiet acx :=
  ⟨iff_of_true reports fun _ member => absurd member List.not_mem_nil⟩

theorem andThen (first : Judged x tx acx) (second : ∀ a acx' code, x acx = .ok (a, acx', code) →
    Judged (f a) (tf a) acx') : Judged (x >>= f) (x.follow tx tf) acx := by
  constructor
  rw [reports_bind, first.verdict]
  unfold Analysis.follow
  cases result : x acx with
  | error s =>
    simp only [List.append_nil]
    exact and_iff_left fun a acx' code run => by cases run
  | ok r =>
    obtain ⟨a, acx₁, code₁⟩ := r
    simp only [List.forall_mem_append]
    apply and_congr_right
    intro _
    rw [← (second a acx₁ code₁ result).verdict]
    constructor
    · exact fun rest => rest a acx₁ code₁ rfl
    · intro reports a' acx' code run
      cases run
      exact reports

protected theorem bind (readable : acx.st.Readable) (follows : Follows x tx acx)
    (first : Judged x tx acx) (second : ∀ a acx' code, x acx = .ok (a, acx', code) →
      acx'.st.Readable → Judged (f a) (tf a) acx') : Judged (x >>= f) (x.follow tx tf) acx := by
  apply first.andThen
  intro a acx' code run
  exact second a acx' code run (follows.readable readable run)

theorem step (run : x acx = .ok (a, acx', code)) (rest : Judged (f a) (tf a) acx') :
    Judged (x >>= f) (x.follow quiet tf) acx := by
  constructor
  unfold Analysis.follow
  rw [reports_bind_of_ok run, run]
  exact rest.verdict

theorem skip (run : x acx = .ok (a, acx, code)) (rest : Judged (f a) t acx) :
    Judged (x >>= f) t acx := ⟨(reports_bind_of_ok run).trans rest.verdict⟩

theorem last (first : Judged x t acx)
    (rest : ∀ a acx' code, x acx = .ok (a, acx', code) → Reports (f a) acx') :
    Judged (x >>= f) t acx := by
  constructor
  rw [reports_bind, first.verdict]
  exact and_iff_left rest

theorem here (verdict : Reports x acx ↔ (⟨c, acx⟩ : Moment).Ends) : Judged x (Dragon.here c) acx :=
  ⟨verdict.trans List.forall_mem_singleton.symm⟩

theorem forall_traced : (∀ m ∈ Dragon.traced c x t acx, m.Ends) ↔
    (⟨c, acx⟩ : Moment).Ends ∧ ∀ m ∈ t acx, m.Ends := by
  unfold Dragon.traced Analysis.follow
  rw [List.forall_mem_cons, List.forall_mem_append]
  apply and_congr_right
  intro _
  cases x acx with
  | error s => simp
  | ok r =>
    apply and_iff_left
    intro m member
    rw [List.mem_singleton.mp member]
    trivial

theorem traced (start : (⟨c, acx⟩ : Moment).Ends) (inner : Judged x t acx) :
    Judged x (Dragon.traced c x t) acx := by
  constructor
  rw [forall_traced, inner.verdict]
  exact (and_iff_right start).symm

end Judged

/-! ## Paths -/

theorem reports_findField {reg : Reg} {n : Name} {fields : List (Name × Index)} {offset : Int}
    {acx : Acx} {f : StabResolvedType → Analysis Unit} {rest : StabResolvedType → Prop}
    (after : ∀ ty, Reports (f ty) acx ↔ rest ty) :
    Reports (findField reg n fields offset >>= f) acx ↔ FieldTyped (stabType acx.st) n rest fields := by
  induction fields generalizing offset with
  | nil =>
    apply iff_of_true _ trivial
    apply reports_bind.mpr
    refine ⟨reports_spanErr _, ?_⟩
    intro ty acx' code run
    simp [findField] at run
  | cons field fields ih =>
    obtain ⟨name, type⟩ := field
    rw [findField, FieldTyped]
    simp only [reports_assoc, reports_get_bind, reports_ofOption_bind]
    apply exists_congr
    intro t
    apply and_congr_right
    intro found
    split
    next =>
      cases shape : t.ty with
      | pointer target =>
        simp only [reports_assoc, reports_ofOption_bind, reports_emit_bind]
        apply exists_congr
        intro u
        apply and_congr_right
        intro _
        rw [reports_bind_of_ok (x := pure u.ty) rfl]
        exact after u.ty
      | _ =>
        simp only [reports_assoc, reports_emit_bind]
        rw [reports_bind_of_ok rfl]
        exact after _
    next => exact ih

theorem reports_fieldLoop {reg : Reg} {names : List Name} {ty : StabResolvedType} {acx : Acx}
    (n : Name) : Reports (fieldLoop reg names.length false (n :: names) ty) acx ↔
      WalkTyped (stabType acx.st) (n :: names) ty := by
  induction names generalizing n ty with
  | nil => exact iff_of_true (reports_pure ()) (by cases ty <;> trivial)
  | cons m names ih =>
    simp only [List.length_cons, fieldLoop, List.cons_ne_nil, if_false]
    cases ty with
    | record fields => exact reports_findField fun ty => ih m
    | _ => exact iff_of_true (reports_spanErr _) trivial

theorem reports_typeOfPath {p : AstPath} {rv : Bool} {acx : Acx} (sound : acx.st.Sound) :
    Reports (typeOfPath p rv) acx ↔ PathTyped acx.st p := by
  rw [typeOfPath, reports_get_bind]
  dsimp only
  by_cases unresolved : stabResolveVar acx.st p.first = resolveFailure
  · rw [if_pos unresolved]
    apply iff_of_true (reports_spanErr _)
    intro v found
    rw [unresolved] at found
    cases found
  · rw [if_neg unresolved]
    obtain ⟨v, found⟩ := (sound.resolveVar p.first).resolve_left unresolved
    obtain ⟨w, acx₁, code, address⟩ := @pathAddress_accepted p.first acx.rs.gimme.1 _
      (acx.setRs acx.rs.gimme.2.1) _ found
    obtain ⟨v₀, found₀, rfl, sameType, -⟩ := pathAddress_run address
    cases found.symm.trans found₀
    have types : stabType ((acx.setRs acx.rs.gimme.2.1).use p.first (stabResolveVar acx.st p.first) v).st =
        stabType acx.st := by
      funext i
      unfold stabType
      rw [Acx.use_types]
      rfl
    have walk := @reports_fieldLoop acx.rs.gimme.1 p.rest
    rw [reports_regGimme_bind, reports_bind_of_ok address, reports_ofOption_bind, sameType]
    have known : PathTyped acx.st p ↔
        ∃ t, stabType acx.st v.type = some t ∧ WalkTyped (stabType acx.st) p.components t.ty := by
      unfold PathTyped
      rw [found]
      simp
    rw [known]
    apply exists_congr
    intro t
    apply and_congr_right
    intro _
    rw [reports_bind, ← types]
    apply Iff.trans _ (walk p.first)
    exact and_iff_left fun _ _ _ _ => by simp

theorem judged_path (p : AstPath) (rv : Bool) {acx : Acx} (sound : acx.st.Sound) :
    Judged (typeOfPath p rv) (pathTrace p rv) acx := by
  constructor
  unfold pathTrace
  rw [Judged.forall_traced, reports_typeOfPath sound]
  apply (and_iff_left _).symm
  intro m member
  dsimp only at member
  split at member
  · exact absurd member List.not_mem_nil
  · unfold Analysis.follow at member
    revert m
    exact (Judged.forall_traced).mpr ⟨trivial, fun m member => absurd member List.not_mem_nil⟩

/-! ## Calls -/

def ActualsJudged (args : List TracedActual) : Prop :=
  ∀ e ∈ args, ∀ rv acx, acx.st.Readable → Judged (e.actual.run rv) (e.trace rv) acx

theorem reports_routineCall {which : Name} {r : Resu} {newline : List Insn} {acx : Acx} :
    Reports (routineCall which r newline) acx := by
  unfold routineCall
  split
  next => exact reports_spanErr _
  next => simp

theorem judged_writes {args : List TracedActual} (each : ActualsJudged args)
    (follows : ActualsFollow args) {acx : Acx} (readable : acx.st.Readable) :
    Judged (writeArgs (args.map TracedActual.actual)) (writesTrace args) acx := by
  induction args generalizing acx with
  | nil => exact .silent (reports_pure ())
  | cons e args ih =>
    rw [ActualsJudged, List.forall_mem_cons] at each
    rw [ActualsFollow, List.forall_mem_cons] at follows
    apply Judged.bind readable (follows.1 true acx readable.sound) (each.1 true acx readable)
    intro r acx₁ code _ readable₁
    apply Judged.bind readable₁ (follows_routineCall rfl "write" r acx₁) (.silent reports_routineCall)
    intro u acx₂ code₂ _ readable₂
    exact ih each.2 follows.2 readable₂

theorem judged_reads {newline : List Insn} (quiet_ : displayed newline = [])
    {args : List TracedActual} (each : ActualsJudged args) (follows : ActualsFollow args) {acx : Acx}
    (readable : acx.st.Readable) :
    Judged (readArgs newline (args.map TracedActual.actual)) (readsTrace newline args) acx := by
  induction args generalizing acx with
  | nil => exact .silent (reports_pure ())
  | cons e args ih =>
    rw [ActualsJudged, List.forall_mem_cons] at each
    rw [ActualsFollow, List.forall_mem_cons] at follows
    rw [List.map_cons, readArgs, readsTrace]
    split
    next =>
      apply Judged.bind readable (follows.1 false acx readable.sound) (each.1 false acx readable)
      intro r acx₁ code _ readable₁
      apply Judged.bind readable₁ (follows_routineCall quiet_ "read" r acx₁)
        (.silent reports_routineCall)
      intro u acx₂ code₂ _ readable₂
      exact ih each.2 follows.2 readable₂
    next => exact .silent (reports_spanErr _)

theorem judged_typesEq (a b : Index) {acx : Acx} (sound : acx.st.Sound) :
    Judged (ofExcept (stabTypesEq acx.st a b)) (here (.typesEq a b)) acx := by
  apply Judged.here
  rw [reports_ofExcept]
  exact reported_stabTypesEq sound

theorem judged_actuals {args : List TracedActual} (each : ActualsJudged args)
    (follows : ActualsFollow args) {formals : List Index} {acx : Acx} (readable : acx.st.Readable)
    (vars : ∀ ft ∈ formals, ∃ v, stabVar acx.st ft = some v) :
    Judged (pushActuals (args.map TracedActual.actual) formals) (actualsTrace args formals) acx := by
  induction args generalizing acx formals with
  | nil => exact .silent (reports_pure ())
  | cons e args ih =>
    rw [ActualsJudged, List.forall_mem_cons] at each
    rw [ActualsFollow, List.forall_mem_cons] at follows
    cases formals with
    | nil => exact .silent (reports_pure ())
    | cons ft formals =>
      rw [List.forall_mem_cons] at vars
      have first := follows.1 true acx readable.sound
      apply Judged.bind readable first (each.1 true acx readable)
      intro et acx₁ code run readable₁
      have steps : StabSteps acx.table acx₁.table := (first.ended et acx₁ code run).steps
      obtain ⟨v, found⟩ := steps.exists_var vars.1
      have found : stabVar acx₁.st ft = some v := found
      apply Judged.skip (x := get) rfl
      apply Judged.congr (t := (ofExcept (stabTypesEq acx₁.st et.type v.type)).follow
        (here (.typesEq et.type v.type)) fun _ =>
          (emit [.push et.reg.name]).follow quiet fun _ => actualsTrace args formals)
      · simp only [found]
      rw [found]
      apply Judged.skip (x := pure v) rfl
      apply Judged.bind readable₁
      · exact Follows.cons rfl ⟨rfl, rfl⟩ rfl (fun _ => trivial) (Follows.ofExcept_ _ acx₁)
      · exact judged_typesEq et.type v.type readable₁.sound
      · intro same acx₂ code₂ compared _
        obtain ⟨-, rfl, -⟩ := ofExcept_eq_ok.mp compared
        apply Judged.step (x := emit [.push et.reg.name]) rfl
        exact ih each.2 follows.2 readable₁ fun ft member => steps.exists_var (vars.2 ft member)

theorem judged_magic (which : Magic) {args : List TracedActual} (each : ActualsJudged args)
    (follows : ActualsFollow args) {acx : Acx} (readable : acx.st.Readable) :
    Judged (analyzeMagic which (args.map TracedActual.actual)) (magicTrace which args) acx := by
  cases which with
  | write => exact judged_writes each follows readable
  | writeln => exact Judged.last (judged_writes each follows readable) fun _ _ _ _ => reports_emit _
  | read => exact judged_reads rfl each follows readable
  | readln => exact judged_reads rfl each follows readable

theorem Stab.Sound.exists_callee {st : Stab} (sound : st.Sound) {p : AstPath} (plain : p.rest = [])
    (resolved : stabResolveFunc st p.first ≠ resolveFailure) :
    ∃ pt type formals retty, calleeOf st p = some pt ∧ pt.ty = .func type formals retty ∧
      stabType st (stabResolveFunc st p.first) = some pt := by
  have func : stabResolveFunc st p.first = resolveFailure ∨
      ∃ t, stabType st (stabResolveFunc st p.first) = some t ∧ t.ty.isFunc = true := by
    apply @resolveIn_cases _ _ _ fun i => i = resolveFailure ∨
      ∃ t, stabType st i = some t ∧ t.ty.isFunc = true
    · exact .inl rfl
    · exact fun sc member => sound.funcNames sc member p.first
  obtain ⟨pt, found, isFunc⟩ := func.resolve_left resolved
  rw [calleeOf, if_pos ⟨plain, resolved⟩]
  cases shape : pt.ty with
  | func type formals retty => exact ⟨pt, type, formals, retty, found, shape, found⟩
  | _ =>
    rw [shape] at isFunc
    cases isFunc

theorem judged_call (p : AstPath) (exprs : List AstExpr) {args : List TracedActual}
    (each : ActualsJudged args) (follows : ActualsFollow args) {acx : Acx}
    (readable : acx.st.Readable) :
    Judged (analyzeCall p (args.map TracedActual.actual))
      (traced (.call p exprs) (analyzeCall p (args.map TracedActual.actual)) (calleeTrace p args))
      acx := by
  by_cases plain : p.rest = []
  · refine Judged.traced (c := .call p exprs) plain ?_
    unfold analyzeCall
    rw [if_neg (not_not.mpr plain)]
    apply Judged.skip (x := get) rfl
    dsimp only
    by_cases unresolved : stabResolveFunc acx.st p.first = resolveFailure
    · rw [if_pos unresolved]
      apply Judged.congr (t := quiet)
      · simp only [quiet, calleeTrace, calleeOf, unresolved, ne_eq, not_true_eq_false, and_false,
          if_false]
      · exact .silent (reports_spanErr _)
    · rw [if_neg unresolved]
      obtain ⟨pt, type, formals, retty, callee, shape, found⟩ :=
        readable.sound.exists_callee plain unresolved
      rw [found]
      apply Judged.skip (x := pure pt) rfl
      cases isMagic : pt.magic with
      | some which =>
        apply Judged.congr (t := magicTrace which args)
        · simp only [calleeTrace, callee, isMagic]
        · exact Judged.last (judged_magic which each follows readable) fun _ _ _ _ => reports_pure _
      | none =>
        by_cases many : args.length = formals.length
        · apply Judged.congr (t := saveRegisters.follow quiet fun _ => actualsTrace args formals)
          · simp only [calleeTrace, callee, isMagic, shape, many, ne_eq, not_true_eq_false, if_false]
          simp only [callSubprog, shape, List.length_map, many, ne_eq, not_true_eq_false, if_false]
          apply Judged.step (x := saveRegisters) rfl
          apply Judged.last (judged_actuals each follows readable _)
          · intro u acx₁ code _
            simp
          · exact readable.sound.exists_formal found shape
        · apply Judged.congr (t := quiet)
          · simp only [quiet, calleeTrace, callee, isMagic, shape, many, ne_eq, not_false_eq_true,
              if_true]
          simp only [callSubprog, shape, List.length_map, many, ne_eq, not_false_eq_true, if_true]
          apply Judged.silent
          simp
  · constructor
    rw [Judged.forall_traced]
    apply iff_of_false
    · unfold analyzeCall
      rw [if_pos plain, reports_stop]
      exact Stop.not_reported_assertFailed
    · exact fun both => plain both.1

/-! ## Expressions -/

theorem SameTypes.calleeOf {st st₁ : Stab} (same : SameTypes st st₁) (p : AstPath) :
    calleeOf st₁ p = Dragon.calleeOf st p := by
  unfold Dragon.calleeOf stabResolveFunc
  rw [same.chain, same.stabType]

theorem SameTypes.blank {st st₁ : Stab} (same : SameTypes st st₁) (e : AstExpr) :
    e.Blank st₁ ↔ e.Blank st := by
  induction e using AstExpr.Blank.induct with
  | case1 p args => simp only [AstExpr.Blank, same.calleeOf]
  | case2 op left right ih => exact ih
  | case3 p e ih => exact ih
  | case4 op e ih => exact ih
  | _ => exact Iff.rfl

/-- The result of a node is in no register exactly when its leftmost part is a magic call. -/
def Node.Placed (st : Stab) : Node → List Resu → Prop
  | .expr e _, results => ∃ r, results = [r] ∧ (r.reg.name = .blank ↔ e.Blank st)
  | .call p args, results => ∃ r, results = [r] ∧ (r.reg.name = .blank ↔ (AstExpr.app p args).Blank st)
  | _, _ => True

theorem Run.placed_node {node : Node} {acx acx' : Acx} {results : List Resu} {code : List Insn}
    (run : Run node acx results acx' code) : node.Placed acx.st results := by
  have taken : ∀ rs : RegisterSet, (rs.gimme.1.name = .blank ↔ False) :=
    fun rs => iff_false_intro (gimme_ne_blank rs)
  induction run with
  | lit => exact ⟨_, rfl, taken _⟩
  | path path => exact ⟨_, rfl, taken _⟩
  | deref path found pointer => exact ⟨_, rfl, taken _⟩
  | idx path found array _ _ ih =>
    obtain ⟨r, single, placed⟩ := ih
    cases single
    exact ⟨_, rfl, placed.trans (path.sameTypes.blank _)⟩
  | bin _ _ _ _ ih₁ _ =>
    obtain ⟨r, single, placed⟩ := ih₁
    cases single
    exact ⟨_, rfl, placed⟩
  | un _ _ _ ih =>
    obtain ⟨r, single, placed⟩ := ih
    cases single
    exact ⟨_, rfl, placed⟩
  | app _ ih => exact ih
  | magic callee magic _ _ =>
    refine ⟨_, rfl, iff_of_true rfl ⟨_, callee, ?_⟩⟩
    rw [magic]
    rfl
  | call callee magic func _ _ =>
    refine ⟨_, rfl, (taken _).trans (iff_of_false id ?_)⟩
    rintro ⟨t, found, isMagic⟩
    cases callee.symm.trans found
    rw [magic] at isMagic
    cases isMagic
  | noActuals => trivial
  | actual => trivial
  | wrote => trivial
  | write => trivial
  | read_ => trivial
  | read => trivial

theorem Run.placed {e : AstExpr} {rv : Bool} {acx acx' : Acx} {r : Resu} {code : List Insn}
    (run : Run (.expr e rv) acx [r] acx' code) : r.reg.name = .blank ↔ e.Blank acx.st := by
  obtain ⟨r', single, placed⟩ := run.placed_node
  cases single
  exact placed

theorem reported_ihatex86 (r : RegName) : Reported (ihatex86 r.chars) ↔ r ≠ .blank := by
  cases r <;> simp [RegName.chars, ihatex86]

theorem reported_binCode {op : Token} {l r : RegName} :
    Reported (binCode op l r) ↔ ¬ (isRelop op = true ∧ r = .blank) := by
  have compared : Reported (ihatex86 r.chars >>= fun byte =>
      .ok [Insn.alu .cmp l r, .set (relopCond op) byte, .movzx l byte]) ↔ r ≠ .blank := by
    rw [reported_bind, reported_ihatex86]
    exact and_iff_left fun byte _ => reported_ok _
  cases op with
  | eq | neq | lt | gt | le | ge => exact compared.trans (by simp [isRelop])
  | not => exact iff_of_true (reported_error.mpr trivial) (by simp [isRelop])
  | and | or | div | slash | mod | plus | minus | star =>
    exact iff_of_true (reported_ok _) (by simp [isRelop])

theorem reports_stabPrintType_bind {β : Type} {t : Index} {f : Unit → Analysis β} {acx : Acx} :
    Reports (stabPrintType t >>= f) acx ↔ stabType acx.st t ≠ none ∧ Reports (f ()) acx := by
  rw [stabPrintType, reports_assoc, reports_get_bind, reports_assoc, reports_ofOption_bind,
    Option.ne_none_iff_exists', exists_and_right.symm]
  apply exists_congr
  intro u
  rw [reports_bind_of_ok (x := pure ()) rfl]

theorem reports_checkOperands_bind {β : Type} {l r : Index} {f : Unit → Analysis β} {acx : Acx} :
    Reports (checkOperands l r >>= f) acx ↔
      (l ≠ r → ∀ t ∈ [l, r], stabType acx.st t ≠ none) ∧ (l = r → Reports (f ()) acx) := by
  by_cases same : l = r
  · rw [checkOperands, if_neg (not_not.mpr same), reports_bind_of_ok (x := pure ()) rfl]
    simp [same]
  · have refused : Reports (spanErr "incompatible types for binary operation" >>= f) acx :=
      reports_bind.mpr ⟨reports_spanErr _, fun _ _ _ run => by simp at run⟩
    rw [checkOperands, if_pos same]
    simp only [reports_assoc, reports_stabPrintType_bind, refused]
    simp [same]

-- The end of a binary operation fails when an unknown type is described, or when the byte of no
-- register is taken.
theorem reports_binEnd {op : Token} {lty rty : Resu} {acx : Acx} :
    Reports (do
      checkOperands lty.type rty.type
      let lines ← ofExcept (binCode op lty.reg.name rty.reg.name)
      emit lines
      regTakeitback rty.reg
      return (⟨if isRelop op then booleanTypeIdx else lty.type, lty.reg⟩ : Resu)) acx ↔
      ¬ (lty.type = rty.type ∧ isRelop op = true ∧ rty.reg.name = .blank) ∧
        ¬ (lty.type ≠ rty.type ∧ ∃ t ∈ [lty.type, rty.type], stabType acx.st t = none) := by
  have print : Reports (do
      let lines ← ofExcept (binCode op lty.reg.name rty.reg.name)
      emit lines
      regTakeitback rty.reg
      return (⟨if isRelop op then booleanTypeIdx else lty.type, lty.reg⟩ : Resu)) acx ↔
      ¬ (isRelop op = true ∧ rty.reg.name = .blank) := by
    rw [reports_ofExcept_bind, reported_binCode]
    exact and_iff_left fun lines _ => by simp
  rw [reports_checkOperands_bind, print, and_comm]
  apply and_congr
  · exact not_and.symm
  · simp only [not_and, not_exists, ne_eq]

theorem reports_of_error {α : Type} {x : Analysis α} {acx : Acx} {s : Stop} (stopped : x acx = .error s) :
    Reports x acx ↔ s.Reported := by
  unfold Reports
  rw [stopped, reported_error]

-- A binary operation fails where its operands do, when it compares with no register, or when it
-- describes an operand of an unknown type.
theorem reports_bin {op : Token} {left right : AstExpr} {rv : Bool} {acx : Acx} :
    Reports (analyzeExpr (.bin op left right) rv) acx ↔
      Reports (analyzeExpr left true >>= fun _ => analyzeExpr right true) acx ∧
        ¬ ComparesBlank op left right acx ∧ ¬ DescribesUnknown left right acx := by
  rw [analyzeExpr]
  have stops : ∀ {s : Stop}, (analyzeExpr left true >>= fun _ => analyzeExpr right true : Analysis Resu)
      acx = .error s → (Reports (analyzeExpr left true >>= fun _ => analyzeExpr right true) acx ∧
        ¬ ComparesBlank op left right acx ∧ ¬ DescribesUnknown left right acx ↔ s.Reported) := by
    intro s stopped
    have returned : ¬ (analyzeExpr left true >>= fun _ => analyzeExpr right true :
        Analysis Resu).Returns acx := by
      rintro ⟨r, returned⟩
      rw [stopped] at returned
      cases returned
    rw [reports_of_error stopped]
    exact and_iff_left ⟨fun compares => returned compares.returns,
      fun describes => returned describes.returns⟩
  cases first : analyzeExpr left true acx with
  | error s =>
    rw [stops (bind_eq_error.mpr (.inl first))]
    exact reports_of_error (bind_eq_error.mpr (.inl first))
  | ok r =>
    obtain ⟨lty, acx₁, code₁⟩ := r
    rw [reports_bind_of_ok first]
    cases second : analyzeExpr right true acx₁ with
    | error s =>
      rw [stops (bind_eq_error.mpr (.inr ⟨lty, acx₁, code₁, first, second⟩))]
      exact reports_of_error (bind_eq_error.mpr (.inl second))
    | ok r =>
      obtain ⟨rty, acx₂, code₂⟩ := r
      have run₁ := analyzeExpr_run _ first
      have run₂ := analyzeExpr_run _ second
      have reported : Reports (analyzeExpr right true) acx₁ := reported_of_ok ⟨_, second⟩
      have types : exprType acx.st left = exprType acx.st right ↔ lty.type = rty.type := by
        rw [run₁.typed, ← run₁.sameTypes.exprType, run₂.typed, Option.some.injEq]
      have blank : right.Blank acx.st ↔ rty.reg.name = .blank := by
        rw [run₂.placed, run₁.sameTypes.blank]
      have returns : (analyzeExpr left true >>= fun _ => analyzeExpr right true :
          Analysis Resu).Returns acx :=
        ⟨_, bind_eq_ok.mpr ⟨lty, acx₁, code₁, code₂, first, second, rfl⟩⟩
      rw [reports_bind_of_ok second, reports_binEnd, reports_bind_of_ok first, and_iff_right reported]
      apply and_congr (not_congr _) (not_congr _)
      · constructor
        · rintro ⟨same, relop, here⟩
          exact ⟨relop, blank.mpr here, types.mpr same, returns⟩
        · rintro ⟨relop, here, same, -⟩
          exact ⟨types.mp same, relop, blank.mp here⟩
      · have entries : (∃ e ∈ [left, right], (exprType acx.st e).bind (stabType acx.st) = none) ↔
            ∃ t ∈ [lty.type, rty.type], stabType acx₂.st t = none := by
          have table : stabType acx₂.st = stabType acx.st :=
            funext fun i => (run₂.sameTypes.stabType i).trans (run₁.sameTypes.stabType i)
          simp only [List.mem_cons, List.not_mem_nil, or_false, exists_eq_or_imp, exists_eq_left,
            table, run₁.typed, (run₁.sameTypes.exprType right).symm.trans run₂.typed, Option.bind_some]
        constructor
        · rintro ⟨differ, unknown⟩
          exact ⟨mt types.mp differ, entries.mpr unknown, returns⟩
        · rintro ⟨differ, unknown, -⟩
          exact ⟨mt types.mpr differ, entries.mp unknown⟩

theorem exists_type_of_path {p : AstPath} {rv : Bool} {acx acx' : Acx} {r : Resu} {code : List Insn}
    (sound : acx.st.Sound) (run : typeOfPath p rv acx = .ok (r, acx', code)) :
    ∃ t, stabType acx'.st r.type = some t := by
  have typed := (reports_typeOfPath sound).mp (reported_of_ok ⟨_, run⟩)
  obtain ⟨v, acx₁, lines, path, rfl, rfl, -⟩ := typeOfPath_run run
  obtain ⟨t, found, -⟩ := typed v path.found
  exact ⟨t, (path.sameTypes.stabType v.type).trans found⟩

mutual

theorem judged_expr : ∀ (e : AstExpr) (rv : Bool) {acx : Acx}, e.written = true →
    acx.st.Readable → Judged (analyzeExpr e rv) (exprTrace e rv) acx
  | .app p args, rv, acx, written, readable => by
      apply Judged.traced
      · trivial
      have call := judged_call p args (judged_args args written) (follows_args args) readable
      rw [map_argsTrace] at call
      exact call
  | .bin op left right, rv, acx, written, readable => by
      rw [AstExpr.written, Bool.and_eq_true] at written
      have operands := Judged.bind readable (follows_expr left true readable.sound)
        (judged_expr left true written.1 readable)
        fun _ _ _ _ readable₁ => judged_expr right true written.2 readable₁
      constructor
      rw [reports_bin, operands.verdict, exprTrace, Judged.forall_traced]
      exact and_comm
  | .deref (.path p), rv, acx, _, readable => by
      apply Judged.traced
      · trivial
      apply Judged.last (judged_path p false readable.sound)
      intro pathty acx₁ code run
      obtain ⟨t, found⟩ := exists_type_of_path readable.sound run
      rw [reports_get_bind, reports_ofOption_bind]
      refine ⟨t, found, ?_⟩
      cases t.ty with
      | pointer target => simp
      | _ => exact reports_spanErr _
  | .idx p e, rv, acx, written, readable => by
      apply Judged.traced
      · trivial
      have follows := follows_path p false readable.sound
      apply Judged.bind readable follows (judged_path p false readable.sound)
      intro pathty acx₁ code run readable₁
      obtain ⟨t, found⟩ := exists_type_of_path readable.sound run
      apply Judged.skip (x := get) rfl
      rw [found]
      apply Judged.skip (x := pure t) rfl
      cases shape : t.ty with
      | array lower upper elt =>
        apply Judged.congr (t := exprTrace e true)
        · simp only [found, Option.map_some, shape]
        apply Judged.last (judged_expr e true written readable₁)
        intro ety acx₂ code₂ _
        split
        next => exact reports_spanErr _
        next => simp
      | _ =>
        apply Judged.congr (t := quiet)
        · simp only [found, quiet, Option.map_some, shape]
        · exact .silent (reports_spanErr _)
  | .path p, rv, acx, _, readable => by
      apply Judged.traced
      · trivial
      exact judged_path p rv readable.sound
  | .un op e, rv, acx, written, readable => by
      apply Judged.traced
      · trivial
      apply Judged.last (judged_expr e true written readable)
      intro ety acx₁ code _
      split
      next => exact reports_spanErr _
      next =>
        split
        next => exact reports_spanErr _
        next => simp
  | .lit s, rv, acx, _, _ => by
      apply Judged.traced
      · trivial
      apply Judged.silent
      simp [analyzeExpr]
  | .deref (.app ..), _, _, written, _ | .deref (.bin ..), _, _, written, _
  | .deref (.deref _), _, _, written, _ | .deref (.idx ..), _, _, written, _
  | .deref (.un ..), _, _, written, _ | .deref (.lit _), _, _, written, _
  | .deref (.addrof _), _, _, written, _ | .addrof _, _, _, written, _ => by
      simp [AstExpr.written] at written

theorem judged_args : ∀ args : List AstExpr, argsWritten args = true → ActualsJudged (argsTrace args)
  | [], _ => fun _ member => absurd member List.not_mem_nil
  | e :: args, written => by
      rw [argsWritten, Bool.and_eq_true] at written
      rw [argsTrace, ActualsJudged, List.forall_mem_cons]
      exact ⟨fun rv _ readable => judged_expr e rv written.1 readable, judged_args args written.2⟩

end

end Dragon
