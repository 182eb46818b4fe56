import Dragon.Codegen.Visits
import Dragon.Symbol.Steps

/-! The symbol table across a run of the analyzer, step by step. -/

set_option autoImplicit false

namespace Dragon

open Analysis

namespace Acx

/-- The table of a context, with the number of display slots given out. -/
def table (acx : Acx) : Stab × Int := (acx.st, acx.dispOffset)

theorem use_steps {acx : Acx} {name : Name} {idx : Index} {v : StabVar}
    (found : stabVar acx.st idx = some v) : StabSteps acx.table (acx.use name idx v).table := by
  unfold use
  split
  next fresh => exact .single (.capture found fresh.2)
  next => exact .refl

end Acx

theorem PathRun.steps {p : AstPath} {rv : Bool} {acx acx' : Acx} {v : StabVar}
    {lines : RegName → List Insn} (path : PathRun p rv acx v acx' lines) :
    StabSteps acx.table acx'.table := path.used ▸ Acx.use_steps path.found

theorem Run.steps {node : Node} {acx acx' : Acx} {results : List Resu} {code : List Insn}
    (run : Run node acx results acx' code) : StabSteps acx.table acx'.table := by
  induction run with
  | lit => exact .refl
  | path path => exact path.steps
  | deref path _ _ => exact path.steps
  | idx path _ _ _ _ ih => exact path.steps.trans ih
  | bin _ _ _ _ ih₁ ih₂ => exact ih₁.trans ih₂
  | un _ _ _ ih => exact ih
  | app _ ih => exact ih
  | magic _ _ _ ih => exact ih
  | call _ _ _ _ ih => exact ih
  | noActuals => exact .refl
  | actual _ _ _ _ ih₁ ih₂ => exact ih₁.trans ih₂
  | wrote => exact .refl
  | write _ _ _ ih₁ ih₂ => exact ih₁.trans ih₂
  | read_ => exact .refl
  | read _ _ _ _ ih₁ ih₂ => exact ih₁.trans ih₂

theorem TargetRun.table {e : AstExpr} {acx acx' : Acx} (target : TargetRun e acx acx') :
    acx'.table = acx.table := by
  obtain ⟨b, rfl⟩ := target.assigned
  rfl

theorem StmtRun.steps {node : StmtNode} {acx acx' : Acx} {code : List Insn}
    (run : StmtRun node acx acx' code) : StabSteps acx.table acx'.table := by
  induction run with
  | null => exact .refl
  | assign left target right _ first second =>
    subst first second
    exact left.steps.trans (target.table ▸ right.steps)
  | foor first last _ _ path _ _ back back' leave ih =>
    subst back back'
    have before := (first.steps.trans last.steps).trans path.steps
    exact ((before.tail .enter).trans ih).tail (.leave leave)
  | ite test _ _ _ ih₁ ih₂ => exact (test.steps.trans ih₁).trans ih₂
  | proc call => exact call.steps
  | stmts _ ih => exact ih
  | wdo test _ _ ih => exact test.steps.trans ih
  | nil => exact .refl
  | cons _ _ ih₁ ih₂ => exact ih₁.trans ih₂

theorem Opened.table {st st' : Stab} {head : AstSig} {name : Name} {types : List AstTypeDecl}
    {decls : List AstDecls} {retslot : Index} {off : Int} (d : Int) (sound : st.Sound)
    (opened : Opened st head name types decls retslot off st') : StabSteps (st, d) (st', d) := by
  obtain ⟨st₁, off₂, st₂, off₃, st₃, retty, st₄, types, formals, locals, result, added⟩ := opened
  have entered : StabSteps (st, d) (stabEnter st, d) := .single .enter
  have steps₁ : StabSteps (st, d) (st₁, d) :=
    entered.trans (stabAddAllTypes_steps d (entered.sound sound) types)
  have steps₂ : StabSteps (st, d) (st₂, d) :=
    steps₁.trans (stabAddAllDecls_steps d (steps₁.sound sound) formals)
  have steps₃ : StabSteps (st, d) (st₃, d) :=
    steps₂.trans (stabAddAllDecls_steps d (steps₂.sound sound) locals)
  have steps₄ : StabSteps (st, d) (st₄, d) :=
    steps₃.trans (stabResolveRetty_steps d (steps₃.sound sound) result).1
  exact steps₄.trans (stabAddVar_steps d added)

theorem SubRun.steps {node : SubNode} {acx acx' : Acx} {code : List Insn}
    (run : SubRun node acx acx' code) (sound : acx.st.Sound) :
    StabSteps acx.table acx'.table := by
  induction run with
  | @sub head name decls subprogs types body acx acx₁ acx₂ st st' _ _ _ _ _ _ _ opened _ own leave
      ih =>
    have steps₁ : StabSteps acx.table (st, acx.dispOffset) := opened.table acx.dispOffset sound
    have steps₂ : StabSteps acx.table acx₁.table := steps₁.trans (ih (steps₁.sound sound))
    exact (steps₂.trans own.run.steps).tail (.leave leave)
  | nil => exact .refl
  | @cons d subprogs acx acx₁ acx₂ st _ _ added _ _ ih₁ ih₂ =>
    have steps₁ : StabSteps acx.table (st, acx.dispOffset) := stabAddFunc_steps acx.dispOffset sound added
    have steps₂ : StabSteps acx.table acx₁.table := steps₁.trans (ih₁ (steps₁.sound sound))
    exact steps₂.trans (ih₂ (steps₂.sound sound))

theorem doImports_steps {args : List Name} {st st' : Stab} (d : Int)
    (imports : doImports st args = .ok st') : StabSteps (st, d) (st', d) :=
  doImports_preserves (fun st₁ which (before : StabSteps (st, d) (st₁, d)) =>
    before.trans (stabAddMagicFunc_steps st₁ which d)) .refl imports

theorem openProgram_steps {prog : AstProgram} {off : Int} {acx : Acx} {code : List Insn}
    (opened : openProgram prog initialAcx = .ok (off, acx, code)) :
    StabSteps initialAcx.table acx.table := by
  simp only [openProgram, emit_bind_eq_ok, withStab_bind_eq_ok, except_bind_eq_ok,
    withStab_eq_ok] at opened
  obtain ⟨_, ⟨_, st₁, ⟨_, imports, pure₁⟩, _, st₂, ⟨_, types, pure₂⟩, st₃, decls, rfl, rfl⟩, rfl⟩ :=
    opened
  cases pure₁
  cases pure₂
  have steps₁ : StabSteps (stabNew, 0) (_, 0) := doImports_steps 0 imports
  have steps₂ : StabSteps (stabNew, 0) (_, 0) :=
    steps₁.trans (stabAddAllTypes_steps 0 (steps₁.sound Stab.sound_stabNew) types)
  exact steps₂.trans (stabAddAllDecls_steps 0 (steps₂.sound Stab.sound_stabNew) decls)

/-! ## Where subprograms are analyzed -/

theorem openSubprog_steps {head : AstSig} {name : Name} {types : List AstTypeDecl}
    {decls : List AstDecls} {acx acx' : Acx} {slot : Index × Int} {code : List Insn}
    (sound : acx.st.Sound) (opened : openSubprog head name types decls acx = .ok (slot, acx', code)) :
    StabSteps acx.table acx'.table := by
  obtain ⟨retslot, off⟩ := slot
  obtain ⟨st, entered, rfl, -⟩ := openSubprog_eq_ok.mp opened
  exact entered.table acx.dispOffset sound

theorem Visits.steps {subprogs : List AstSubdecl} {acx start : Acx} {path : List Nat}
    {d : AstSubdecl} {before : List Insn} (visits : Visits subprogs acx path d start before)
    (sound : acx.st.Sound) : StabSteps acx.table start.table := by
  induction visits with
  | @here d subprogs acx st added => exact stabAddFunc_steps acx.dispOffset sound added
  | @inside d e subprogs acx acx₁ start st slot path opening before added opened _ ih =>
    have steps₁ : StabSteps acx.table (st, acx.dispOffset) := stabAddFunc_steps acx.dispOffset sound added
    have steps₂ : StabSteps acx.table acx₁.table :=
      steps₁.trans (@openSubprog_steps _ _ _ _ (acx.setSt st) _ _ _ (steps₁.sound sound) opened)
    exact steps₂.trans (ih (steps₂.sound sound))
  | @later d e subprogs acx acx₁ start st k path code before added first _ ih =>
    have steps₁ : StabSteps acx.table (st, acx.dispOffset) := stabAddFunc_steps acx.dispOffset sound added
    have steps₂ : StabSteps acx.table acx₁.table :=
      steps₁.trans ((analyzeSubprog_run d first).steps (steps₁.sound sound))
    exact steps₂.trans (ih (steps₂.sound sound))

theorem AstProgram.Visits.steps {prog : AstProgram} {path : List Nat} {d : AstSubdecl}
    {start : Acx} {before : List Insn} (visits : prog.Visits path d start before) :
    StabSteps initialAcx.table start.table := by
  obtain ⟨off, acx, opening, lines, opened, there, -⟩ := visits
  have steps : StabSteps initialAcx.table acx.table := openProgram_steps opened
  exact steps.trans (there.steps (steps.sound Stab.sound_stabNew))

theorem AstProgram.Visits.sound {prog : AstProgram} {path : List Nat} {d : AstSubdecl}
    {start : Acx} {before : List Insn} (visits : prog.Visits path d start before) :
    start.st.Sound := visits.steps.sound Stab.sound_stabNew

end Dragon
