import Dragon.Codegen.Procedures
import Dragon.Symbol.Comparison
import Mathlib.Data.List.Forall2

/-! The check of a call against the declaration of the subprogram.

The number of actuals is checked, and a type that differs is only reported. So a
call in an accepted program has as many actuals as there are formal names, and
may have actuals of other types.
-/

set_option autoImplicit false

namespace Dragon

open Analysis Stab

/-! ## The declared types -/

/-- The types the formals of a signature resolve to, one after the other. -/
inductive FormalTypes : Stab → List (Name × AstType) → List Index → Prop where
  | nil {st : Stab} : FormalTypes st [] []
  | cons {st st₁ : Stab} {name : Name} {type : AstType} {t : Index} {formals : List (Name × AstType)}
      {ts : List Index} (here : stabResolveType st type = .ok (t, st₁))
      (rest : FormalTypes (stabAddVarNoOffset st₁ name t).2 formals ts) :
      FormalTypes st ((name, type) :: formals) (t :: ts)

def DeclaredTypes (st : Stab) (sig : AstSig) (types : List Index) : Prop :=
  ∃ retty st₁, stabResolveRetty st sig.retty = .ok (retty, st₁) ∧ FormalTypes st₁ sig.formals types

theorem FormalTypes.length {st : Stab} {formals : List (Name × AstType)} {types : List Index}
    (resolved : FormalTypes st formals types) : types.length = formals.length := by
  induction resolved with
  | nil => rfl
  | cons _ _ ih => simp only [List.length_cons, ih]

theorem FormalTypes.unique {st : Stab} {formals : List (Name × AstType)} {ts us : List Index}
    (first : FormalTypes st formals ts) (second : FormalTypes st formals us) : ts = us := by
  induction first generalizing us with
  | nil =>
    cases second
    rfl
  | cons here _ ih =>
    cases second with
    | cons here' rest' =>
      cases here.symm.trans here'
      rw [ih rest']

theorem DeclaredTypes.unique {st : Stab} {sig : AstSig} {ts us : List Index}
    (first : DeclaredTypes st sig ts) (second : DeclaredTypes st sig us) : ts = us := by
  obtain ⟨retty, st₁, result, formals⟩ := first
  obtain ⟨retty', st₁', result', formals'⟩ := second
  cases result.symm.trans result'
  exact formals.unique formals'

theorem DeclaredTypes.length {st : Stab} {sig : AstSig} {types : List Index}
    (declared : DeclaredTypes st sig types) : types.length = sig.formals.length := by
  obtain ⟨retty, st₁, -, resolved⟩ := declared
  exact resolved.length

def HaveTypes (st : Stab) (ids types : List Index) : Prop :=
  List.Forall₂ (fun i t => ∃ v, stabVar st i = some v ∧ v.type = t) ids types

theorem HaveTypes.steps {s t : Stab × Int} (steps : StabSteps s t) {ids types : List Index}
    (have_ : HaveTypes s.1 ids types) : HaveTypes t.1 ids types := by
  apply List.Forall₂.imp _ have_
  rintro i type ⟨v, found, rfl⟩
  obtain ⟨w, there, -, same, -⟩ := steps.vars found
  exact ⟨w, there, same⟩

theorem stabResolveFormals_types {formals : List (Name × AstType)} {st st' : Stab}
    {ids : List Index} (sound : st.Sound) (found : stabResolveFormals st formals = .ok (ids, st')) :
    ∃ types, FormalTypes st formals types ∧ HaveTypes st' ids types := by
  induction formals generalizing st ids with
  | nil =>
    cases found
    exact ⟨[], .nil, .nil⟩
  | cons formal formals ih =>
    obtain ⟨name, type⟩ := formal
    simp only [stabResolveFormals, except_bind_eq_ok] at found
    obtain ⟨⟨t, st₁⟩, inner, ⟨rest, st₂⟩, more, found⟩ := found
    cases found
    obtain ⟨steps, below⟩ := stabResolveType_steps type 0 sound inner
    have added : StabSteps (st, 0) ((stabAddVarNoOffset st₁ name t).2, 0) :=
      steps.tail (.addVar below)
    have sound' := added.sound sound
    obtain ⟨types, resolved, have_⟩ := ih sound' more
    have later := (stabResolveFormals_steps 0 sound' more).1
    have new : stabVar (stabAddVarNoOffset st₁ name t).2 (stabAddVarNoOffset st₁ name t).1 =
        some ⟨t, name, -1, -1, false⟩ := by
      apply arenaGet_eq_some.mpr
      refine ⟨Int.natCast_nonneg _, ?_⟩
      simp [stabAddVarNoOffset, insertVar, pushVar]
    obtain ⟨w, there, -, same, -⟩ := later.vars new
    exact ⟨t :: types, .cons inner resolved, .cons ⟨w, there, same⟩ have_⟩

theorem stabAddFunc_declares {st st' : Stab} {f : Name} {sig : AstSig} (sound : st.Sound)
    (added : stabAddFunc st f sig = .ok st') :
    ∃ types ids retty, DeclaredTypes st sig types ∧ HaveTypes st' ids types ∧
      stabResolveFunc st' f ≠ resolveFailure ∧
      stabType st' (stabResolveFunc st' f) = some ⟨.func sig.type ids retty, abiClosureSize, none⟩ := by
  obtain ⟨-, type, st₁, resolved, rfl⟩ := stabAddFunc_eq_ok.mp added
  simp only [stabResolveSig, except_bind_eq_ok] at resolved
  obtain ⟨⟨retty, st₂⟩, result, ⟨ids, st₃⟩, formals, last⟩ := resolved
  have pushed : st₃.pushType ⟨.func sig.type ids retty, abiClosureSize, none⟩ = (type, st₁) :=
    Except.ok.inj last
  have index : type = st₃.types.length := (congrArg Prod.fst pushed).symm
  have table : st₁ = (st₃.pushType ⟨.func sig.type ids retty, abiClosureSize, none⟩).2 :=
    (congrArg Prod.snd pushed).symm
  have steps := (stabResolveRetty_steps 0 sound result).1
  obtain ⟨types, declared, have_⟩ := stabResolveFormals_types (steps.sound sound) formals
  have bound : stabResolveFunc (st₁.insertFunc f type) f = st₃.types.length := by
    simp only [stabResolveFunc, Stab.chain, Stab.insertFunc, resolveIn, NameTable.lookup_insert_self]
    rw [index]
    apply if_neg
    intro failed
    have low := Int.natCast_nonneg st₃.types.length
    rw [failed] at low
    exact absurd low (by decide)
  refine ⟨types, ids, retty, ⟨retty, st₂, result, declared⟩, table ▸ have_, ?_, ?_⟩
  · rw [bound, resolveFailure]
    exact fun failed => by omega
  · rw [bound, table]
    apply arenaGet_eq_some.mpr
    refine ⟨Int.natCast_nonneg _, ?_⟩
    simp [Stab.pushType, Stab.insertFunc]

/-! ## Calls and their declarations -/

/-- The call of a subprogram that an earlier moment declares. -/
structure Moment.Calls (m : Moment) (p : AstPath) (d : Moment) (sig : AstSig) (st : Stab) : Prop where
  declares : d.Declares p.first sig st
  bound : stabResolveFunc st p.first = stabResolveFunc m.acx.st p.first
  later : StabSteps (st, d.acx.dispOffset) m.acx.table

/-- There are as many actuals as types, and each one computes to its type. -/
inductive ActualsAgree : List AstExpr → List Index → Acx → Prop where
  | nil {acx : Acx} : ActualsAgree [] [] acx
  | cons {e : AstExpr} {args : List AstExpr} {t : Index} {types : List Index} {acx acx₁ : Acx}
      {et : Resu} {code : List Insn} (value : analyzeExpr e true acx = .ok (et, acx₁, code))
      (same : stabTypesEq acx₁.st et.type t = .ok true) (rest : ActualsAgree args types acx₁) :
      ActualsAgree (e :: args) (t :: types) acx

/-- Every call of a subprogram in the program agrees with its declaration. -/
def CallsChecked (prog : AstProgram) : Prop :=
  ∀ m ∈ prog.trace, ∀ p args pt, m.call = .call p args → calleeOf m.acx.st p = some pt →
    pt.magic = none → ∃ d ∈ prog.trace, ∃ sig st types, m.Calls p d sig st ∧
      DeclaredTypes d.acx.st sig types ∧ args.length = sig.formals.length ∧
        ActualsAgree args types m.acx

def actualFits (st : Stab) (e : AstExpr) (formal : Index) : Bool :=
  match exprType st e, stabVar st formal with
  | some t, some v =>
      match stabTypesEq st t v.type with
      | .ok same => same
      | .error _ => false
  | _, _ => false

/-- No actual of a call is reported. A magic call takes any type. -/
def Moment.fits (m : Moment) : Bool :=
  match m.call with
  | .call p args =>
      match calleeOf m.acx.st p with
      | some ⟨.func _ formals _, _, none⟩ =>
          (args.zip formals).all fun actual => actualFits m.acx.st actual.1 actual.2
      | _ => true
  | _ => true

theorem exists_declaration {prog : AstProgram} {m : Moment} (member : m ∈ prog.trace) {p : AstPath}
    {pt : StabType} (callee : calleeOf m.acx.st p = some pt) (plain : pt.magic = none) :
    ∃ d ∈ prog.trace, ∃ sig st, m.Calls p d sig st := by
  unfold calleeOf at callee
  split at callee
  next resolved =>
    obtain ⟨sc, open_, bound⟩ := resolveIn_bound resolved.2
    have since := (@follows_program prog initialAcx sound_stabNew).since m member
    have origin := since.functions sc open_ p.first
    rw [bound] at origin
    -- the first table has no subprograms, so the name is imported or declared in the run
    cases origin with
    | unbound failed => exact absurd failed resolved.2
    | @before sc₀ start same =>
      rw [List.mem_singleton.mp start] at same
      rw [← same] at bound
      exact absurd (same.symm.trans (NameTable.lookup_empty p.first)) resolved.2
    | magic found isMagic =>
      cases callee.symm.trans found
      exact absurd plain isMagic
    | declared inside declares same later => exact ⟨_, inside, _, _, declares, same, later⟩
  next => cases callee

theorem Moment.Calls.callee {m d : Moment} {p : AstPath} {sig : AstSig} {st : Stab}
    (calls : m.Calls p d sig st) (sound : d.acx.st.Sound) (single : p.rest = []) :
    ∃ types ids retty, DeclaredTypes d.acx.st sig types ∧ HaveTypes m.acx.st ids types ∧
      calleeOf m.acx.st p = some ⟨.func sig.type ids retty, abiClosureSize, none⟩ := by
  obtain ⟨types, ids, retty, declared, have_, bound, entry⟩ :=
    stabAddFunc_declares sound calls.declares.added
  refine ⟨types, ids, retty, declared, HaveTypes.steps calls.later have_, ?_⟩
  rw [calls.bound] at bound entry
  unfold calleeOf
  rw [if_pos ⟨single, bound⟩]
  exact stabType_mono (StabSteps.grows calls.later).types entry

/-! ## The comparison of the actuals -/

theorem Run.expr_unique {e : AstExpr} {rv : Bool} {acx acx' acx'' : Acx} {r r' : Resu}
    {code code' : List Insn} (run : Run (.expr e rv) acx [r] acx' code)
    (run' : analyzeExpr e rv acx = .ok (r', acx'', code')) : r = r' ∧ acx' = acx'' := by
  have same := run.expr_accepted.symm.trans run'
  simp only [Except.ok.injEq, Prod.mk.injEq] at same
  exact ⟨same.1, same.2.1⟩

theorem Run.actualFits {st : Stab} {e : AstExpr} {acx acx₁ : Acx} {et : Resu} {code : List Insn}
    {formal : Index} {v : StabVar} {same : Bool} (value : Run (.expr e true) acx [et] acx₁ code)
    (kept : SameTypes st acx.st) (found : stabVar acx₁.st formal = some v)
    (compared : stabTypesEq acx₁.st et.type v.type = .ok same) :
    actualFits st e formal = same := by
  have kept₁ := kept.trans value.sameTypes
  have type := value.typed
  rw [kept.exprType] at type
  have entry := kept₁.vars formal
  rw [found, Option.map_some] at entry
  obtain ⟨w, there, declared⟩ := Option.map_eq_some_iff.mp entry.symm
  rw [stabTypesEq_congr kept₁.types, ← declared] at compared
  simp only [Dragon.actualFits, type, there, compared]

theorem Run.actualsAgree_iff {args : List AstExpr} {ids types : List Index} {acx acx' : Acx}
    {results : List Resu} {code : List Insn} (run : Run (.actuals args ids) acx results acx' code)
    {st : Stab} (kept : SameTypes st acx.st) (have_ : HaveTypes acx.st ids types) :
    ActualsAgree args types acx ↔
      ((args.zip ids).all fun actual => Dragon.actualFits st actual.1 actual.2) = true := by
  -- an actual may capture variables, which leaves the types of all variables as they are
  induction args generalizing ids types acx results code with
  | nil =>
    cases run
    cases have_
    exact iff_of_true .nil rfl
  | cons e args ih =>
    cases run with
    | @actual _ _ id ids _ acx₁ _ et v same _ _ _ value found compared rest =>
      cases have_ with
      | @cons _ t _ types first others =>
        have later : HaveTypes acx₁.st ids types := HaveTypes.steps value.steps others
        obtain ⟨w, before, rfl⟩ := first
        obtain ⟨w', after, -, unchanged, -⟩ := value.steps.vars before
        cases found.symm.trans after
        rw [List.zip_cons_cons, List.all_cons, Bool.and_eq_true,
          value.actualFits kept found compared, ← ih rest (kept.trans value.sameTypes) later]
        constructor
        · intro agree
          cases agree with
          | cons value' equal agree =>
            obtain ⟨rfl, rfl⟩ := value.expr_unique value'
            rw [← unchanged, compared] at equal
            exact ⟨Except.ok.inj equal, agree⟩
        · rintro ⟨rfl, agree⟩
          exact .cons value.expr_accepted (unchanged ▸ compared) agree

theorem HaveTypes.length {st : Stab} {ids types : List Index} (have_ : HaveTypes st ids types) :
    ids.length = types.length := List.Forall₂.length_eq have_

theorem Run.actuals_length {args : List AstExpr} {ids : List Index} {acx acx' : Acx}
    {results : List Resu} {code : List Insn} (run : Run (.actuals args ids) acx results acx' code) :
    args.length = ids.length := by
  induction args generalizing ids acx results code with
  | nil =>
    cases run
    rfl
  | cons e args ih =>
    cases run with
    | actual _ _ _ rest => simp only [List.length_cons, ih rest]

/-! ## Calls of accepted programs -/

theorem Moment.fits_of_call {m : Moment} {p : AstPath} {args : List AstExpr} {type : Subprogs}
    {ids : List Index} {retty : Index} {size : Int} (call : m.call = .call p args)
    (callee : calleeOf m.acx.st p = some ⟨.func type ids retty, size, none⟩) :
    m.fits = (args.zip ids).all fun actual => actualFits m.acx.st actual.1 actual.2 := by
  simp only [fits, call, callee]

theorem Moment.Calls.checked {m d : Moment} {p : AstPath} {args : List AstExpr} {sig : AstSig}
    {st : Stab} (calls : m.Calls p d sig st) (call : m.call = .call p args)
    (sound : d.acx.st.Sound) (returned : m.Returned) :
    ∃ types, DeclaredTypes d.acx.st sig types ∧ args.length = sig.formals.length ∧
      (ActualsAgree args types m.acx ↔ m.fits = true) := by
  obtain ⟨callName, acx⟩ := m
  cases call
  obtain ⟨⟨r, acx', code⟩, accepted⟩ := returned
  obtain ⟨actuals, writes, reads⟩ := analyzeArgs_run args
  have run := analyzeCall_run actuals writes reads (analyzeArgs_length args) accepted
  -- a dotted name has no callee
  have single : p.rest = [] := by
    cases run with
    | magic callee | call callee =>
      unfold calleeOf at callee
      split at callee
      next resolved => exact resolved.1
      next => cases callee
  obtain ⟨types, ids, retty, declared, have_, entry⟩ := calls.callee sound single
  refine ⟨types, declared, ?_⟩
  cases run with
  | magic callee magic _ =>
    cases entry.symm.trans callee
    cases magic
  | call callee magic func inner =>
    cases entry.symm.trans callee
    cases func
    rw [Moment.fits_of_call rfl entry, inner.actualsAgree_iff (.refl acx.st) have_]
    exact ⟨inner.actuals_length.trans (have_.length.trans declared.length), Iff.rfl⟩

theorem CallsChecked.fits {prog : AstProgram} {acx : Acx} {code : List Insn}
    (checked : CallsChecked prog) (accepted : analyze prog = .ok (acx, code)) {m : Moment}
    (member : m ∈ prog.trace) : m.fits = true := by
  have returned := (ends_of_accepted accepted).returned m member
  unfold Moment.fits
  split
  next p args call =>
    split
    next type ids retty size callee =>
      obtain ⟨d, inside, sig, st, types, calls, declared, -, agree⟩ :=
        checked m member p args _ call callee rfl
      obtain ⟨types', declared', -, agree_iff⟩ :=
        calls.checked call (sound_of_mem inside) returned
      cases declared.unique declared'
      rw [← Moment.fits_of_call call callee]
      exact agree_iff.mp agree
    next => rfl
  next => rfl

/-- The calls of an accepted program agree with the declarations exactly when no actual is
reported. -/
theorem callsChecked_iff (prog : AstProgram) (acx : Acx) (code : List Insn)
    (accepted : analyze prog = .ok (acx, code)) :
    CallsChecked prog ↔ ∀ m ∈ prog.trace, m.fits = true := by
  refine ⟨fun checked m member => checked.fits accepted member, ?_⟩
  intro fits m member p args pt call callee plain
  obtain ⟨d, inside, sig, st, calls⟩ := exists_declaration member callee plain
  obtain ⟨types, declared, count, agree⟩ := calls.checked call (sound_of_mem inside)
    ((ends_of_accepted accepted).returned m member)
  exact ⟨d, inside, sig, st, types, calls, declared, count, agree.mpr (fits m member)⟩

-- procedure p(a, b: integer; c: boolean); begin end
def groupedDecl : AstSubdecl :=
  .mk ⟨.procedure, [⟨["a", "b"], .integer⟩, ⟨["c"], .boolean⟩], none⟩ "p" [] [] [] .null

-- function f(x: integer): integer; begin f := x end
def identityDecl : AstSubdecl :=
  .mk ⟨.function, [⟨["x"], .integer⟩], some .integer⟩ "f" [] [] []
    (.assign (.path (astPath "f")) (.path (astPath "x")))

-- A main program p(f(1), 1 + 2, 0 = 0).
def groupedCall : AstProgram :=
  ⟨[], [], [identityDecl, groupedDecl], [], .proc (astPath "p") [.app (astPath "f") [.lit "1"],
    .bin .plus (.lit "1") (.lit "2"), .bin .eq (.lit "0") (.lit "0")]⟩

theorem groupedCall_callsChecked : CallsChecked groupedCall := by
  have accepts : (analyze groupedCall).toOption.isSome = true := by
    decide +kernel
  obtain ⟨⟨acx, code⟩, result⟩ := exists_ok_of_isSome accepts
  apply (callsChecked_iff groupedCall acx code result).mpr
  decide +kernel

-- procedure p(a: integer); begin end, called with 0 = 0.
def comparisonPassed : AstProgram :=
  ⟨[], [], [.mk ⟨.procedure, [⟨["a"], .integer⟩], none⟩ "p" [] [] [] .null], [],
    .proc (astPath "p") [.bin .eq (.lit "0") (.lit "0")]⟩

-- A boolean is passed for the integer.
theorem not_forall_callsChecked : ¬ ∀ (prog : AstProgram) (acx : Acx) (code : List Insn),
    analyze prog = .ok (acx, code) → CallsChecked prog := by
  intro all
  have accepts : (analyze comparisonPassed).toOption.isSome = true := by
    decide +kernel
  have reported : ∃ m ∈ comparisonPassed.trace, m.fits = false := by
    decide +kernel
  obtain ⟨⟨acx, code⟩, result⟩ := exists_ok_of_isSome accepts
  obtain ⟨m, member, differs⟩ := reported
  have fits := (all comparisonPassed acx code result).fits result member
  rw [differs] at fits
  cases fits

end Dragon
