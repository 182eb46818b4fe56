import Dragon.Codegen.Tables
import Dragon.Symbol.Dangling

/-! The symbol table calls of the analyzer, in the order of the program.

A program determines the calls that analyze makes to enter and leave scopes and
to declare names. Between them it may capture variables. The states it passes
through are those after some of these calls.
-/

set_option autoImplicit false

namespace Dragon

open Analysis Stab

/-- A call that changes the scopes or declares something. -/
inductive Declaration where
  | enter
  | leave
  | type (t : AstTypeDecl)
  | decls (d : AstDecls) (arguments : Bool)
  | result (name : Name) (retty : Option AstType)   -- the return slot
  | func (name : Name) (sig : AstSig)
  | magic (which : Magic)

namespace Declaration

/-- The type names a declaration mentions, at any depth. -/
def mentions : Declaration → List Name
  | .type t => t.type.names
  | .decls d _ => d.type.names
  | .result _ retty => rettyNames retty
  | .func _ sig => sig.names
  | .enter | .leave | .magic _ => []

/-- Every type the declaration contains meets a condition. -/
def Each (good : AstType → Prop) : Declaration → Prop
  | .type t => good t.type
  | .decls d _ => good d.type
  | .result _ retty => ∀ type ∈ retty, good type
  | .func _ sig => (∀ type ∈ sig.retty, good type) ∧ ∀ formal ∈ sig.formals, good formal.2
  | .enter | .leave | .magic _ => True

/-- Every type name the declaration mentions is declared in an open scope. -/
def Known (d : Declaration) (st : Stab) : Prop := NamesDeclared st d.mentions

/-- The name of a type that is declared is not freed. -/
def KeepsName : Declaration → Prop
  | .type t => t.type.isComplex = true
  | _ => True

/-- What a declaration must meet to bring in no dangling index. -/
structure Resolved (d : Declaration) (st : Stab) : Prop where
  kept : d.KeepsName
  known : d.Known st

/-- What an accepted call does, at some frame offset. -/
inductive Step : Declaration → Stab → Stab → Prop where
  | enter {st : Stab} : Step .enter st (stabEnter st)
  | leave {st st' : Stab} (left : stabLeave st = .ok st') : Step .leave st st'
  | type {t : AstTypeDecl} {st st' : Stab} (added : stabAddType st t.name t.type = .ok st') :
      Step (.type t) st st'
  | decls {d : AstDecls} {arguments : Bool} {off off' : Int} {st st' : Stab}
      (added : stabAddDecls st d off arguments = .ok (off', st')) : Step (.decls d arguments) st st'
  | result {name : Name} {retty : Option AstType} {type id : Index} {off off' : Int}
      {st st₁ st' : Stab} (resolved : stabResolveRetty st retty = .ok (type, st₁))
      (added : stabAddVar st₁ name type off true = .ok (id, off', st')) :
      Step (.result name retty) st st'
  | func {name : Name} {sig : AstSig} {st st' : Stab} (added : stabAddFunc st name sig = .ok st') :
      Step (.func name sig) st st'
  | magic {which : Magic} {st : Stab} : Step (.magic which) st (stabAddMagicFunc st which)

end Declaration

/-- Part of a run over calls still to be made: each call made meets the condition, and variables
may be captured in between. -/
inductive Passes (ok : Declaration → Stab → Prop) :
    List Declaration → Stab × Int → List Declaration → Stab × Int → Prop where
  | here {ds : List Declaration} {s : Stab × Int} : Passes ok ds s ds s
  | capture {ds ds' : List Declaration} {st : Stab} {d : Int} {idx : Index} {v : StabVar}
      {u : Stab × Int} (found : stabVar st idx = some v) (free : v.captured = false)
      (rest : Passes ok ds (st.setVar idx { v with captured := true, dispOffset := d }, d + 1) ds' u) :
      Passes ok ds (st, d) ds' u
  | declare {e : Declaration} {ds ds' : List Declaration} {st st' : Stab} {d : Int} {u : Stab × Int}
      (good : ok e st) (step : e.Step st st') (rest : Passes ok ds (st', d) ds' u) :
      Passes ok (e :: ds) (st, d) ds' u

/-! ## The calls of a program -/

mutual

/-- Only for loops open scopes. -/
def AstStmt.declarations : AstStmt → List Declaration
  | .foor _ _ _ body => [.enter] ++ (body.declarations ++ [.leave])
  | .ite _ thenn elze => thenn.declarations ++ elze.declarations
  | .wdo _ body => body.declarations
  | .stmts body => stmtsDeclarations body
  | .null | .assign .. | .proc .. => []

def stmtsDeclarations : List AstStmt → List Declaration
  | [] => []
  | s :: body => s.declarations ++ stmtsDeclarations body

end

def openDeclarations (head : AstSig) (name : Name) (types : List AstTypeDecl)
    (decls : List AstDecls) : List Declaration :=
  [.enter] ++ (types.map .type ++ (head.args.map (.decls · false) ++ (decls.map (.decls · true) ++
    [.result name head.retty])))

mutual

def AstSubdecl.declarations : AstSubdecl → List Declaration
  | .mk head name decls subprogs types body =>
      openDeclarations head name types decls ++
        (subprogsDeclarations subprogs ++ (body.declarations ++ [.leave]))

def subprogsDeclarations : List AstSubdecl → List Declaration
  | [] => []
  | d :: subprogs => [.func d.name d.head] ++ (d.declarations ++ subprogsDeclarations subprogs)

end

def importDeclarations : List Name → List Declaration
  | [] => []
  | imported :: args =>
      (if imported = "input" then [.magic .readln, .magic .read]
      else if imported = "output" then [.magic .writeln, .magic .write] else []) ++
        importDeclarations args

def AstProgram.declarations (prog : AstProgram) : List Declaration :=
  importDeclarations prog.args ++ (prog.types.map .type ++ (prog.decls.map (.decls · true) ++
    (subprogsDeclarations prog.subprogs ++ prog.body.declarations)))

/-! ## What a call does to the type indices -/

namespace Declaration

theorem Step.steps {e : Declaration} {st st' : Stab} (step : e.Step st st') (d : Int)
    (sound : st.Sound) : StabSteps (st, d) (st', d) := by
  cases step with
  | enter => exact .single .enter
  | leave left => exact .single (.leave left)
  | type added => exact stabAddType_steps d sound added
  | @decls decls _ _ _ _ _ added =>
    simp only [stabAddDecls, except_bind_eq_ok] at added
    obtain ⟨⟨type, st₁⟩, resolved, added⟩ := added
    exact (stabResolveType_steps decls.type d sound resolved).1.trans (stabAddNames_steps d added)
  | result resolved added =>
    exact (stabResolveRetty_steps d sound resolved).1.trans (stabAddVar_steps d added)
  | func added => exact stabAddFunc_steps d sound added
  | magic => exact stabAddMagicFunc_steps st _ d

def Effective : Declaration → Prop
  | .decls d _ => d.names ≠ []
  | _ => True

theorem stabAddVar_clean {st st' : Stab} {name : Name} {type id : Index} {off off' : Int} {up : Bool}
    (added : stabAddVar st name type off up = .ok (id, off', st')) :
    (st'.Clean ↔ st.Clean) ∧ type ≠ resolveFailure := by
  unfold stabAddVar at added
  split at added
  · cases added
  next t found =>
    cases added
    have low := (arenaGet_lt found).1
    have resolved : type ≠ resolveFailure := by
      intro failed
      rw [failed] at low
      exact absurd low (by decide)
    exact ⟨(clean_addVar_iff st ⟨type, name, -1, off, false⟩ name).trans (and_iff_left resolved),
      resolved⟩

theorem stabAddNames_clean {names : List Name} {type : Index} {up : Bool} {st st' : Stab}
    {off off' : Int} (added : stabAddNames st type up names off = .ok (off', st')) :
    (st'.Clean ↔ st.Clean) ∧ (names ≠ [] → type ≠ resolveFailure) := by
  induction names generalizing st off with
  | nil =>
    cases added
    exact ⟨Iff.rfl, fun some_ => absurd rfl some_⟩
  | cons var names ih =>
    simp only [stabAddNames] at added
    split at added
    · cases added
    · simp only [except_bind_eq_ok] at added
      obtain ⟨⟨id, off₁, st₁⟩, first, rest⟩ := added
      obtain ⟨same, resolved⟩ := stabAddVar_clean first
      exact ⟨(ih rest).1.trans same, fun _ => resolved⟩

theorem Step.clean_iff {e : Declaration} {st st' : Stab} (step : e.Step st st') (clean : st.Clean) :
    (e.Known st → st'.Clean) ∧ (e.Effective → st'.Clean → e.Known st) := by
  have nothing : ∀ {P Q : Prop}, P → (Q → P) ∧ (True → P → ∀ n ∈ ([] : List Name),
      stabResolveTypeName st n ≠ resolveFailure) :=
    fun holds => ⟨fun _ => holds, fun _ _ n member => absurd member List.not_mem_nil⟩
  cases step with
  | enter => exact nothing clean.enter
  | leave left => exact nothing (clean.leave left)
  | @type t _ _ added =>
    obtain ⟨-, -, id, st₁, resolved, rfl⟩ := stabAddType_eq_ok.mp added
    have iff := stabResolveType_clean_iff t.type resolved
    constructor
    · intro declared
      obtain ⟨clean₁, named⟩ := iff.mpr ⟨clean, declared⟩
      exact (clean₁.insertType_iff t.name id).mpr named
    · intro _ after
      -- resolution has left the names of the scopes alone
      have clean₁ : st₁.Clean := by
        refine ⟨after.types, after.vars, ?_⟩
        rw [(stabResolveType_scopes t.type resolved).chain]
        exact clean.typeNames
      exact (iff.mp ⟨clean₁, (clean₁.insertType_iff t.name id).mp after⟩).2
  | @decls d _ _ _ _ _ added =>
    simp only [stabAddDecls, except_bind_eq_ok] at added
    obtain ⟨⟨type, st₁⟩, resolved, added⟩ := added
    have iff := stabResolveType_clean_iff d.type resolved
    obtain ⟨same, some_⟩ := stabAddNames_clean added
    constructor
    · intro declared
      exact same.mpr (iff.mpr ⟨clean, declared⟩).1
    · intro effective after
      exact (iff.mp ⟨same.mp after, some_ effective⟩).2
  | result resolved added =>
    have iff := stabResolveRetty_clean_iff resolved
    obtain ⟨same, some_⟩ := stabAddVar_clean added
    constructor
    · intro declared
      exact same.mpr (iff.mpr ⟨clean, declared⟩).1
    · intro _ after
      exact (iff.mp ⟨same.mp after, some_⟩).2
  | func added =>
    obtain ⟨-, type, st₁, resolved, rfl⟩ := stabAddFunc_eq_ok.mp added
    have iff := stabResolveSig_clean_iff resolved
    constructor
    · intro declared
      exact (iff.mpr ⟨clean, declared⟩).insertFunc _ _
    · intro _ after
      exact (iff.mp after.of_insertFunc).2
  | @magic which =>
    have pushed := clean_pushType_iff st ⟨.func .function [] 0, 0, some which⟩
    have resolved : ∀ i ∈ (StabResolvedType.func .function [] 0).indices, i ≠ resolveFailure := by
      simp [StabResolvedType.indices, resolveFailure]
    exact nothing ((pushed.mpr ⟨clean, resolved⟩).insertFunc _ _)

end Declaration

/-! ## Conditions on tables -/

/-- A condition on the types of a table and on its type names that resolving types keeps, where the
index found meets a condition of its own. -/
structure Kept (good : AstType → Prop) (P : Stab → Prop) (Q : Index → Prop) : Prop where
  resolve : ∀ (T : AstType) (st st' : Stab) (i : Index), good T → st.Sound → P st →
    stabResolveType st T = .ok (i, st') → P st' ∧ Q i
  func : ∀ (st : Stab) (t : StabType), t.ty.isFunc = true → P st → P (st.pushType t).2
  name : ∀ (st : Stab) (n : Name) (i : Index), Q i → P st → P (st.insertType n i)
  enter : ∀ st : Stab, P st → P (stabEnter st)
  leave : ∀ st st' : Stab, stabLeave st = .ok st' → P st → P st'
  same : ∀ st st' : Stab, st'.types = st.types →
    st'.chain.map StabScope.types = st.chain.map StabScope.types → P st → P st'

section

variable {good : AstType → Prop} {P : Stab → Prop} {Q : Index → Prop} {st st' : Stab}

theorem Kept.retty (kept : Kept good P Q) {retty : Option AstType} {i : Index}
    (each : ∀ type ∈ retty, good type) (sound : st.Sound) (before : P st)
    (found : stabResolveRetty st retty = .ok (i, st')) : P st' := by
  cases retty with
  | none =>
    cases found
    exact before
  | some type => exact (kept.resolve type st st' i (each type rfl) sound before found).1

theorem Kept.formals (kept : Kept good P Q) {formals : List (Name × AstType)} {ids : List Index}
    (each : ∀ formal ∈ formals, good formal.2) (sound : st.Sound) (before : P st)
    (found : stabResolveFormals st formals = .ok (ids, st')) : P st' := by
  induction formals generalizing st ids with
  | nil =>
    cases found
    exact before
  | cons formal formals ih =>
    obtain ⟨name, type⟩ := formal
    rw [List.forall_mem_cons] at each
    simp only [stabResolveFormals, except_bind_eq_ok] at found
    obtain ⟨⟨t, st₁⟩, inner, ⟨rest, st₂⟩, more, found⟩ := found
    cases found
    obtain ⟨steps, below⟩ := stabResolveType_steps type 0 sound inner
    have added : StabStep (st₁, 0) ((stabAddVarNoOffset st₁ name t).2, 0) := .addVar below
    have after := (kept.resolve type st st₁ t each.1 sound before inner).1
    exact ih each.2 (added.sound (steps.sound sound)) (kept.same st₁ _ rfl rfl after) more

theorem Kept.addVar (kept : Kept good P Q) {name : Name} {type id : Index} {off off' : Int} {up : Bool}
    (before : P st) (added : stabAddVar st name type off up = .ok (id, off', st')) : P st' := by
  unfold stabAddVar at added
  split at added
  · cases added
  · cases added
    exact kept.same st _ rfl rfl before

theorem Kept.addNames (kept : Kept good P Q) {names : List Name} {type : Index} {off off' : Int}
    {up : Bool} (before : P st) (added : stabAddNames st type up names off = .ok (off', st')) :
    P st' := by
  induction names generalizing st off with
  | nil =>
    cases added
    exact before
  | cons var names ih =>
    simp only [stabAddNames] at added
    split at added
    · cases added
    · simp only [except_bind_eq_ok] at added
      obtain ⟨⟨id, off₁, st₁⟩, first, rest⟩ := added
      exact ih (kept.addVar before first) rest

theorem Declaration.Step.kept {e : Declaration} (step : e.Step st st') (kept : Kept good P Q)
    (each : e.Each good) (sound : st.Sound) (before : P st) : P st' := by
  cases step with
  | enter => exact kept.enter st before
  | leave left => exact kept.leave st st' left before
  | @type t _ _ added =>
    obtain ⟨-, -, id, st₁, resolved, rfl⟩ := stabAddType_eq_ok.mp added
    obtain ⟨after, found⟩ := kept.resolve t.type st st₁ id each sound before resolved
    exact kept.name st₁ t.name id found after
  | @decls d _ _ _ _ _ added =>
    simp only [stabAddDecls, except_bind_eq_ok] at added
    obtain ⟨⟨type, st₁⟩, resolved, added⟩ := added
    exact kept.addNames (kept.resolve d.type st st₁ type each sound before resolved).1 added
  | result resolved added => exact kept.addVar (kept.retty each sound before resolved) added
  | @func name sig _ _ added =>
    obtain ⟨-, type, st₁, resolved, rfl⟩ := stabAddFunc_eq_ok.mp added
    simp only [stabResolveSig, except_bind_eq_ok] at resolved
    obtain ⟨⟨retty, st₂⟩, result, ⟨args, st₃⟩, formals, resolved⟩ := resolved
    cases resolved
    have sound₂ := (stabResolveRetty_steps 0 sound result).1.sound sound
    have after := kept.formals each.2 sound₂ (kept.retty each.1 sound before result) formals
    have pushed := kept.func st₃ ⟨.func sig.type args retty, abiClosureSize, none⟩ rfl after
    apply kept.same _ _ ?_ ?_ pushed
    · rfl
    · rfl
  | @magic which =>
    have pushed := kept.func st ⟨.func .function [] 0, 0, some which⟩ rfl before
    apply kept.same _ _ ?_ ?_ pushed
    · rfl
    · rfl

end

/-! ## Runs -/

namespace Passes

variable {ok : Declaration → Stab → Prop} {ds ds' ds'' : List Declaration} {s t u : Stab × Int}

theorem trans (first : Passes ok ds s ds' t) (second : Passes ok ds' t ds'' u) :
    Passes ok ds s ds'' u := by
  induction first with
  | here => exact second
  | capture found free _ ih => exact .capture found free (ih second)
  | declare good step _ ih => exact .declare good step (ih second)

theorem one {e : Declaration} {st st' : Stab} {d : Int} (good : ok e st) (step : e.Step st st') :
    Passes ok (e :: ds) (st, d) ds (st', d) := .declare good step .here

theorem sound (passes : Passes ok ds s ds' t) (sound : s.1.Sound) : t.1.Sound := by
  induction passes with
  | here => exact sound
  | @capture ds ds' st d idx v u found free _ ih =>
    have captured : StabStep (st, d) (st.setVar idx { v with captured := true, dispOffset := d }, d + 1) :=
      .capture found free
    exact ih (captured.sound sound)
  | @declare e ds ds' st st' d u _ step _ ih =>
    have steps : StabSteps (st, d) (st', d) := step.steps d sound
    exact ih (steps.sound sound)

theorem mono {ok' : Declaration → Stab → Prop} (weaker : ∀ e st, ok e st → ok' e st)
    (passes : Passes ok ds s ds' t) : Passes ok' ds s ds' t := by
  induction passes with
  | here => exact .here
  | capture found free _ ih => exact .capture found free ih
  | declare good step _ ih => exact .declare (weaker _ _ good) step ih

theorem clean (passes : Passes Declaration.Known ds s ds' t) (sound : s.1.Sound)
    (clean : s.1.Clean) : t.1.Sound ∧ t.1.Clean := by
  induction passes with
  | here => exact ⟨sound, clean⟩
  | @capture ds ds' st d idx v u found free _ ih =>
    have captured : StabStep (st, d) (st.setVar idx { v with captured := true, dispOffset := d }, d + 1) :=
      .capture found free
    exact ih (captured.sound sound) (clean.capture found d)
  | @declare e ds ds' st st' d u good step _ ih =>
    have steps : StabSteps (st, d) (st', d) := step.steps d sound
    exact ih (steps.sound sound) ((step.clean_iff clean).1 good)

theorem kept {good : AstType → Prop} {P : Stab → Prop} {Q : Index → Prop} (kept : Kept good P Q)
    (passes : Passes (fun e _ => e.Each good) ds s ds' t) (sound : s.1.Sound) (before : P s.1) :
    P t.1 := by
  induction passes with
  | here => exact before
  | @capture ds ds' st d idx v u found free _ ih =>
    have captured : StabStep (st, d) (st.setVar idx { v with captured := true, dispOffset := d }, d + 1) :=
      .capture found free
    exact ih (captured.sound sound) (kept.same st _ rfl rfl before)
  | @declare e ds ds' st st' d u each step _ ih =>
    have steps : StabSteps (st, d) (st', d) := step.steps d sound
    exact ih (steps.sound sound) (step.kept kept each sound before)

end Passes

/-- The state of the table is reached by a run of the program in which each call so far has met a
condition. -/
def AstProgram.Reaches (prog : AstProgram) (ok : Declaration → Stab → Prop) (s : Stab × Int) : Prop :=
  ∃ rest, Passes ok prog.declarations (stabNew, 0) rest s

/-- No type index dangles in a state that is reached by declarations of declared type names and of
types that keep their names. -/
theorem noDangling_of_resolved (prog : AstProgram) (s : Stab × Int)
    (reached : prog.Reaches Declaration.Resolved s) : s.1.NoDangling := by
  obtain ⟨rest, passes⟩ := reached
  have known := passes.mono fun e st resolved => Declaration.Resolved.known resolved
  obtain ⟨sound, clean⟩ := known.clean sound_stabNew clean_stabNew
  exact sound.noDangling_iff.mpr clean

/-! ## The analyzer makes these calls -/

section

abbrev Made : Declaration → Stab → Prop := fun _ _ => True

variable {ds : List Declaration}

theorem Acx.use_passes {acx : Acx} {name : Name} {idx : Index} {v : StabVar}
    (found : stabVar acx.st idx = some v) :
    Passes Made ds acx.table ds (acx.use name idx v).table := by
  unfold Acx.use
  split
  next fresh => exact .capture found fresh.2 .here
  next => exact .here

theorem PathRun.passes {p : AstPath} {rv : Bool} {acx acx' : Acx} {v : StabVar}
    {lines : RegName → List Insn} (path : PathRun p rv acx v acx' lines) :
    Passes Made ds acx.table ds acx'.table := path.used ▸ Acx.use_passes path.found

theorem Run.passes {node : Node} {acx acx' : Acx} {results : List Resu} {code : List Insn}
    (run : Run node acx results acx' code) : Passes Made ds acx.table ds acx'.table := by
  induction run with
  | lit => exact .here
  | path path => exact path.passes
  | deref path _ _ => exact path.passes
  | idx path _ _ _ _ ih => exact path.passes.trans ih
  | bin _ _ _ _ ih₁ ih₂ => exact ih₁.trans ih₂
  | un _ _ _ ih => exact ih
  | app _ ih => exact ih
  | magic _ _ _ ih => exact ih
  | call _ _ _ _ ih => exact ih
  | noActuals => exact .here
  | actual _ _ _ _ ih₁ ih₂ => exact ih₁.trans ih₂
  | wrote => exact .here
  | write _ _ _ ih₁ ih₂ => exact ih₁.trans ih₂
  | read_ => exact .here
  | read _ _ _ _ ih₁ ih₂ => exact ih₁.trans ih₂

def StmtNode.declarations : StmtNode → List Declaration
  | .stmt s => s.declarations
  | .stmts body => stmtsDeclarations body

theorem StmtRun.passes {node : StmtNode} {acx acx' : Acx} {code : List Insn}
    (run : StmtRun node acx acx' code) (ds : List Declaration) :
    Passes Made (node.declarations ++ ds) acx.table ds acx'.table := by
  induction run generalizing ds with
  | null => exact .here
  | assign left target right _ first second =>
    subst first second
    have value := @Run.passes ds _ _ _ _ _ right
    rw [target.table] at value
    exact left.passes.trans value
  | @foor id start finish body acx acx₁ acx₂ acx₃ acx₄ acx₅ acx₆ _ _ _ _ st _ _ _ first last _ _ path
      _ _ back back' leave ih =>
    subst back back'
    have before : ∀ es, Passes Made es acx.table es acx₃.table := fun es =>
      (first.passes.trans last.passes).trans path.passes
    have inside := ih ([.leave] ++ ds)
    rw [← List.append_assoc] at inside
    have entered := (Passes.one trivial .enter).trans inside
    have left := entered.trans (Passes.one trivial (.leave leave))
    apply (before _).trans
    simp only [StmtNode.declarations, AstStmt.declarations, List.append_assoc, List.cons_append,
      List.nil_append] at left ⊢
    exact left
  | ite test _ _ _ ih₁ ih₂ =>
    simp only [StmtNode.declarations, AstStmt.declarations, List.append_assoc]
    exact (test.passes.trans (ih₁ _)).trans (ih₂ ds)
  | proc call => exact call.passes
  | stmts _ ih => exact ih ds
  | wdo test _ _ ih => exact test.passes.trans (ih ds)
  | nil => exact .here
  | cons _ _ ih₁ ih₂ =>
    simp only [StmtNode.declarations, stmtsDeclarations, List.append_assoc]
    exact (ih₁ _).trans (ih₂ ds)

theorem stabAddAllTypes_passes {types : List AstTypeDecl} {st st' : Stab} (d : Int)
    (added : stabAddAllTypes st types = .ok st') :
    Passes Made (types.map .type ++ ds) (st, d) ds (st', d) := by
  induction types generalizing st with
  | nil =>
    cases added
    exact .here
  | cons t types ih =>
    simp only [stabAddAllTypes, except_bind_eq_ok] at added
    obtain ⟨st₁, first, rest⟩ := added
    exact .declare trivial (.type first) (ih rest)

theorem stabAddAllDecls_passes {decls : List AstDecls} {up : Bool} {st st' : Stab} {off off' : Int}
    (d : Int) (added : stabAddAllDecls st up decls off = .ok (off', st')) :
    Passes Made (decls.map (.decls · up) ++ ds) (st, d) ds (st', d) := by
  induction decls generalizing st off with
  | nil =>
    cases added
    exact .here
  | cons decl decls ih =>
    simp only [stabAddAllDecls, except_bind_eq_ok] at added
    obtain ⟨⟨off₁, st₁⟩, first, rest⟩ := added
    exact .declare trivial (.decls first) (ih rest)

theorem Opened.passes {st st' : Stab} {head : AstSig} {name : Name} {types : List AstTypeDecl}
    {decls : List AstDecls} {retslot : Index} {off : Int} (d : Int)
    (opened : Opened st head name types decls retslot off st') :
    Passes Made (openDeclarations head name types decls ++ ds) (st, d) ds (st', d) := by
  obtain ⟨st₁, off₂, st₂, off₃, st₃, retty, st₄, types, formals, locals, result, added⟩ := opened
  simp only [openDeclarations, List.append_assoc]
  apply Passes.trans (.one trivial .enter)
  apply (stabAddAllTypes_passes d types).trans
  apply (stabAddAllDecls_passes d formals).trans
  apply (stabAddAllDecls_passes d locals).trans
  exact .one trivial (.result result added)

def SubNode.declarations : SubNode → List Declaration
  | .sub d => d.declarations
  | .subs subprogs => subprogsDeclarations subprogs

theorem SubRun.passes {node : SubNode} {acx acx' : Acx} {code : List Insn}
    (run : SubRun node acx acx' code) (ds : List Declaration) :
    Passes Made (node.declarations ++ ds) acx.table ds acx'.table := by
  induction run generalizing ds with
  | sub opened _ own leave ih =>
    simp only [SubNode.declarations, AstSubdecl.declarations, List.append_assoc]
    apply (opened.passes _).trans
    apply (ih _).trans
    apply (own.run.passes _).trans
    exact .one trivial (.leave leave)
  | nil => exact .here
  | @cons d subprogs acx acx₁ acx₂ st _ _ added _ _ ih₁ ih₂ =>
    simp only [SubNode.declarations, subprogsDeclarations, List.append_assoc]
    have declared : Passes Made ([.func d.name d.head] ++ (d.declarations ++
        (subprogsDeclarations subprogs ++ ds))) acx.table _ (acx.setSt st).table :=
      .one trivial (.func added)
    exact (declared.trans (ih₁ _)).trans (ih₂ ds)

theorem doImports_passes {args : List Name} {st st' : Stab} (d : Int)
    (imports : doImports st args = .ok st') :
    Passes Made (importDeclarations args ++ ds) (st, d) ds (st', d) := by
  induction args generalizing st with
  | nil =>
    cases imports
    exact .here
  | cons imported args ih =>
    simp only [doImports] at imports
    simp only [importDeclarations, List.append_assoc]
    split at imports
    next input =>
      rw [if_pos input]
      exact .declare trivial .magic (.declare trivial .magic (ih imports))
    next other =>
      rw [if_neg other]
      split at imports
      next output =>
        rw [if_pos output]
        exact .declare trivial .magic (.declare trivial .magic (ih imports))
      next => cases imports

end

theorem analyze_passes {prog : AstProgram} {acx : Acx} {code : List Insn}
    (accepted : analyze prog = .ok (acx, code)) :
    Passes Made prog.declarations (stabNew, 0) [] acx.table := by
  obtain ⟨off, st, acx₁, subsCode, bodyCode, run⟩ := analyze_run accepted
  obtain ⟨st₁, st₂, imports, types, decls⟩ := run.globals
  unfold AstProgram.declarations
  apply (doImports_passes 0 imports).trans
  apply (stabAddAllTypes_passes 0 types).trans
  apply (stabAddAllDecls_passes 0 decls).trans
  apply (run.subs.passes _).trans
  have body := run.body.passes []
  rw [List.append_nil] at body
  exact body

-- type t = ^integer; var p: t; begin end.
def pointerProgram : AstProgram := ⟨[], [⟨["p"], .ref "t"⟩], [], [⟨"t", .pointer .integer⟩], .null⟩

-- var p: ^nope; begin end.
def danglingProgram : AstProgram := ⟨[], [⟨["p"], .pointer (.ref "nope")⟩], [], [], .null⟩

-- The table with the type of pointerProgram.
def pointerTypes : Stab :=
  (stabNew.pushType ⟨.pointer integerTypeIdx, abiPointerSize, none⟩).2.insertType "t" 6

def pointerTable : Stab :=
  (pointerTypes.pushVar ⟨6, "p", -1, 0, false⟩).2.insertVar "p" 0

theorem pointerProgram_noDangling : pointerTable.NoDangling := by
  apply noDangling_of_resolved pointerProgram (pointerTable, 0)
  have type : (Declaration.type ⟨"t", .pointer .integer⟩).Step stabNew pointerTypes := .type rfl
  have var : (Declaration.decls ⟨["p"], .ref "t"⟩ true).Step pointerTypes pointerTable :=
    @Declaration.Step.decls _ _ 0 8 _ _ rfl
  refine ⟨[], .declare ?_ type (.declare ?_ var .here)⟩
  · exact ⟨rfl, fun n member => absurd member List.not_mem_nil⟩
  · refine ⟨trivial, fun n member => ?_⟩
    rw [List.mem_singleton.mp member]
    decide +kernel

-- The pointer of danglingProgram has no target, and the program is accepted.
theorem not_forall_noDangling : ¬ ∀ (prog : AstProgram) (acx : Acx) (code : List Insn),
    analyze prog = .ok (acx, code) → acx.st.NoDangling := by
  intro all
  have target : (analyze danglingProgram).toOption.map (fun r => r.1.st.types[6]?.map StabType.ty) =
      some (some (.pointer resolveFailure)) := by
    decide +kernel
  cases result : analyze danglingProgram with
  | error stop => simp [result, Except.toOption] at target
  | ok r =>
    obtain ⟨acx, code⟩ := r
    have none := all danglingProgram acx code result
    simp only [result, Except.toOption, Option.map_some, Option.some.injEq, Option.map_eq_some_iff]
      at target
    obtain ⟨t, here, shape⟩ := target
    have held : resolveFailure ∈ t.ty.indices := by
      rw [shape]
      exact List.mem_singleton_self _
    have inside := none.types t (List.mem_of_getElem? here) resolveFailure held
    exact inside.ne_failure rfl

end Dragon
