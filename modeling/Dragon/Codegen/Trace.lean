import Dragon.Codegen.Declarations
import Dragon.Codegen.Loads

/-! The moments of a run.

The calls the analyzer makes, in order, each with the context it is made in. A
run that stops has the moments up to there. What is asked of every point of a run
is asked of these.
-/

set_option autoImplicit false

namespace Dragon

open Analysis

inductive Call where
  | program (prog : AstProgram)
  | sub (d : AstSubdecl)
  | declare (e : Declaration)
  | prologue (off : Int)
  | epilogue (retslot : Index) (off : Int) (captured : List StabVar)
  | globals
  | stmt (s : AstStmt)
  | expr (e : AstExpr) (rv : Bool)
  | call (p : AstPath) (args : List AstExpr)
  | path (p : AstPath) (rv : Bool)
  | address (name : Name) (reg : Reg)
  | target (e : AstExpr)
  | typesEq (a b : Index)
  | finished      -- the return from a call

structure Moment where
  call : Call
  acx : Acx

abbrev Tracer := Acx → List Moment

def quiet : Tracer := fun _ => []

def here (c : Call) : Tracer := fun acx => [⟨c, acx⟩]

/-- The moments of a step and of what comes after it. -/
def Analysis.follow {α : Type} (x : Analysis α) (inner : Tracer) (rest : α → Tracer) : Tracer :=
  fun acx => inner acx ++
    match x acx with
    | .error _ => []
    | .ok (a, acx', _) => rest a acx'

def traced {α : Type} (c : Call) (x : Analysis α) (inner : Tracer) : Tracer :=
  fun acx => ⟨c, acx⟩ :: x.follow inner (fun _ => here .finished) acx

/-! ## Expressions -/

def pathTrace (p : AstPath) (rv : Bool) : Tracer :=
  traced (.path p rv) (typeOfPath p rv) fun acx =>
    let idx := stabResolveVar acx.st p.first
    if idx = resolveFailure then []
    else regGimme.follow quiet (fun reg =>
      traced (.address p.first reg) (pathAddress p.first idx reg) quiet) acx

/-- An actual argument together with its moments. -/
structure TracedActual where
  actual : Actual
  trace : Bool → Tracer

def writesTrace : List TracedActual → Tracer
  | [] => quiet
  | e :: args =>
      (e.actual.run true).follow (e.trace true) fun r =>
        (routineCall "write" r []).follow quiet fun _ => writesTrace args

def readsTrace (newline : List Insn) : List TracedActual → Tracer
  | [] => quiet
  | e :: args =>
      if isLvalue e.actual.expr then
        (e.actual.run false).follow (e.trace false) fun r =>
          (routineCall "read" r newline).follow quiet fun _ => readsTrace newline args
      else quiet

def actualsTrace : List TracedActual → List Index → Tracer
  | e :: args, ft :: formals =>
      (e.actual.run true).follow (e.trace true) fun et acx =>
        match stabVar acx.st ft with
        | none => []
        | some v =>
            (ofExcept (stabTypesEq acx.st et.type v.type)).follow (here (.typesEq et.type v.type))
              (fun _ => (emit [.push et.reg.name]).follow quiet fun _ => actualsTrace args formals) acx
  | _, _ => quiet

def magicTrace (which : Magic) (args : List TracedActual) : Tracer :=
  match which with
  | .write | .writeln => writesTrace args
  | .read => readsTrace [] args
  | .readln => readsTrace [.call "read_newline"] args

def calleeTrace (p : AstPath) (args : List TracedActual) : Tracer := fun acx =>
  match calleeOf acx.st p with
  | none => []
  | some pt =>
      match pt.magic, pt.ty with
      | some which, _ => magicTrace which args acx
      | none, .func _ formals _ =>
          if args.length ≠ formals.length then []
          else saveRegisters.follow quiet (fun _ => actualsTrace args formals) acx
      | none, _ => []

mutual

def exprTrace : AstExpr → Bool → Tracer
  | .app p args, rv =>
      traced (.expr (.app p args) rv) (analyzeExpr (.app p args) rv)
        (traced (.call p args) (analyzeCall p (analyzeArgs args)) (calleeTrace p (argsTrace args)))
  | .bin op left right, rv =>
      traced (.expr (.bin op left right) rv) (analyzeExpr (.bin op left right) rv)
        ((analyzeExpr left true).follow (exprTrace left true) fun _ => exprTrace right true)
  | .deref (.path p), rv =>
      traced (.expr (.deref (.path p)) rv) (analyzeExpr (.deref (.path p)) rv) (pathTrace p false)
  | .idx p e, rv =>
      traced (.expr (.idx p e) rv) (analyzeExpr (.idx p e) rv)
        ((typeOfPath p false).follow (pathTrace p false) fun pathty acx =>
          match (stabType acx.st pathty.type).map StabType.ty with
          | some (.array ..) => exprTrace e true acx
          | _ => [])
  | .path p, rv => traced (.expr (.path p) rv) (analyzeExpr (.path p) rv) (pathTrace p rv)
  | .un op e, rv =>
      traced (.expr (.un op e) rv) (analyzeExpr (.un op e) rv) (exprTrace e true)
  | .deref e, rv => traced (.expr (.deref e) rv) (analyzeExpr (.deref e) rv) quiet
  | .lit s, rv => traced (.expr (.lit s) rv) (analyzeExpr (.lit s) rv) quiet
  | .addrof e, rv => traced (.expr (.addrof e) rv) (analyzeExpr (.addrof e) rv) quiet

def argsTrace : List AstExpr → List TracedActual
  | [] => []
  | e :: args => ⟨⟨e, analyzeExpr e⟩, exprTrace e⟩ :: argsTrace args

end

/-! ## Statements -/

def assignTrace (lvalue rvalue : AstExpr) : Tracer :=
  (analyzeExpr lvalue false).follow (exprTrace lvalue false) fun lty =>
    (checkAssignability lvalue).follow
      (traced (.target lvalue) (checkAssignability lvalue) quiet) fun _ =>
        (analyzeExpr rvalue true).follow (exprTrace rvalue true) fun rty =>
          here (.typesEq rty.type lty.type)

mutual

def stmtTrace : AstStmt → Tracer
  | .null => traced (.stmt .null) (analyzeStmt .null) quiet
  | .assign lvalue rvalue =>
      traced (.stmt (.assign lvalue rvalue)) (analyzeStmt (.assign lvalue rvalue))
        (assignTrace lvalue rvalue)
  | .foor id start finish body =>
      traced (.stmt (.foor id start finish body)) (analyzeStmt (.foor id start finish body))
        ((analyzeExpr start true).follow (exprTrace start true) fun sty =>
          (analyzeExpr finish true).follow (exprTrace finish true) fun ety =>
            if sty.type ≠ integerTypeIdx ∨ ety.type ≠ integerTypeIdx then quiet
            else (typeOfPath (astPath id) false).follow (pathTrace (astPath id) false) fun ity =>
              if ity.type ≠ integerTypeIdx then quiet
              else (modify fun acx => acx.setSt (stabEnter acx.st)).follow (here (.declare .enter))
                fun _ => nextLabel.follow quiet fun _ => nextLabel.follow quiet fun _ =>
                  (analyzeStmt body).follow (stmtTrace body) fun _ =>
                    (regTakeitback ety.reg).follow quiet fun _ =>
                      (regTakeitback sty.reg).follow quiet fun _ => here (.declare .leave))
  | .ite cond thenn elze =>
      traced (.stmt (.ite cond thenn elze)) (analyzeStmt (.ite cond thenn elze))
        ((analyzeCond cond "type of if condition not boolean").follow (exprTrace cond true) fun cty =>
          nextLabel.follow quiet fun _ => nextLabel.follow quiet fun _ =>
            (regTakeitback cty.reg).follow quiet fun _ =>
              (analyzeStmt thenn).follow (stmtTrace thenn) fun _ => stmtTrace elze)
  | .proc p args =>
      traced (.stmt (.proc p args)) (analyzeStmt (.proc p args))
        (traced (.call p args) (analyzeCall p (analyzeArgs args)) (calleeTrace p (argsTrace args)))
  | .stmts body => traced (.stmt (.stmts body)) (analyzeStmt (.stmts body)) (stmtsTrace body)
  | .wdo cond body =>
      traced (.stmt (.wdo cond body)) (analyzeStmt (.wdo cond body))
        (nextLabel.follow quiet fun _ => nextLabel.follow quiet fun _ =>
          (analyzeCond cond "type of while condition not boolean").follow (exprTrace cond true)
            fun cty => (regTakeitback cty.reg).follow quiet fun _ => stmtTrace body)

def stmtsTrace : List AstStmt → Tracer
  | [] => quiet
  | s :: body => (analyzeStmt s).follow (stmtTrace s) fun _ => stmtsTrace body

end

/-! ## Subprograms -/

def addType (t : AstTypeDecl) : Analysis Unit :=
  withStab fun st => do return ((), ← stabAddType st t.name t.type)

def typesTrace : List AstTypeDecl → Tracer
  | [] => quiet
  | t :: types => (addType t).follow (here (.declare (.type t))) fun _ => typesTrace types

def declsTrace (arguments : Bool) : List AstDecls → Int → Tracer
  | [], _ => quiet
  | d :: decls, off =>
      (withStab fun st => stabAddDecls st d off arguments).follow
        (here (.declare (.decls d arguments))) fun off => declsTrace arguments decls off

def openTrace (head : AstSig) (name : Name) (types : List AstTypeDecl) (decls : List AstDecls) :
    Tracer :=
  (modify fun acx => { acx with
    rs := regInit
    currentFuncName := name
    retAssigned := false
    currentFuncType := head.type
    label := 0 }).follow quiet fun _ =>
  (modify fun acx => acx.setSt (stabEnter acx.st)).follow (here (.declare .enter)) fun _ =>
  (withStab fun st => do return ((), ← stabAddAllTypes st types)).follow (typesTrace types) fun _ =>
  (withStab fun st => stabAddAllDecls st false head.args (8 * (head.args.length + 1))).follow
    (declsTrace false head.args (8 * (head.args.length + 1))) fun _ =>
  (withStab fun st => stabAddAllDecls st true decls 0).follow (declsTrace true decls 0) fun _ =>
    here (.declare (.result name head.retty))

def ownTrace (retslot : Index) (off : Int) (body : AstStmt) : Tracer :=
  (prologue off).follow (traced (.prologue off) (prologue off) quiet) fun captured =>
    (analyzeStmt body).follow (stmtTrace body) fun _ =>
      checkReturn.follow quiet fun _ =>
        traced (.epilogue retslot off captured) (epilogue retslot off captured) quiet

def addFunc (d : AstSubdecl) : Analysis Unit :=
  withStab fun st => do return ((), ← stabAddFunc st d.name d.head)

mutual

def subTrace : AstSubdecl → Tracer
  | .mk head name decls subprogs types body =>
      traced (.sub (.mk head name decls subprogs types body))
        (analyzeSubprog (.mk head name decls subprogs types body))
        ((openSubprog head name types decls).follow (openTrace head name types decls) fun slot =>
          (analyzeSubprogs subprogs).follow (subsTrace subprogs) fun _ =>
            (ownCode slot.1 slot.2 body).follow (ownTrace slot.1 slot.2 body) fun _ =>
              here (.declare .leave))

def subsTrace : List AstSubdecl → Tracer
  | [] => quiet
  | d :: subprogs =>
      (addFunc d).follow (here (.declare (.func d.name d.head))) fun _ =>
        (analyzeSubprog d).follow (subTrace d) fun _ => subsTrace subprogs

end

def openProgramTrace (prog : AstProgram) : Tracer :=
  (withStab fun st => do return ((), ← doImports st prog.args)).follow quiet fun _ =>
    (withStab fun st => do return ((), ← stabAddAllTypes st prog.types)).follow
      (typesTrace prog.types) fun _ => declsTrace true prog.decls 0

def mainTrace (body : AstStmt) : Tracer := fun acx =>
  (storeGlobals acx.st.innermost.vars.entries).follow
    (traced .globals (storeGlobals acx.st.innermost.vars.entries) quiet)
    (fun _ => (modify fun acx => { acx with toplevel := true }).follow quiet fun _ => stmtTrace body)
    acx

def programTrace (prog : AstProgram) : Tracer :=
  traced (.program prog) (analyzeProgram prog)
    ((openProgram prog).follow (openProgramTrace prog) fun _ =>
      (analyzeSubprogs prog.subprogs).follow (subsTrace prog.subprogs) fun _ => mainTrace prog.body)

def AstProgram.trace (prog : AstProgram) : List Moment := programTrace prog initialAcx

/-! ## What the moments tell -/

def Analysis.Returns {α : Type} (x : Analysis α) (acx : Acx) : Prop := ∃ r, x acx = .ok r

/-- A call on a part of the syntax tree returns. -/
def Call.Returns : Call → Acx → Prop
  | .program prog => (analyzeProgram prog).Returns
  | .sub d => (analyzeSubprog d).Returns
  | .stmt s => (analyzeStmt s).Returns
  | .expr e rv => (analyzeExpr e rv).Returns
  | .call p args => (analyzeCall p (analyzeArgs args)).Returns
  | .path p rv => (typeOfPath p rv).Returns
  | .target e => (checkAssignability e).Returns
  | _ => fun _ => True

def Analysis.displayed {α : Type} (x : Analysis α) (acx : Acx) : List Int :=
  match x acx with
  | .error _ => []
  | .ok (_, _, code) => Dragon.displayed code

namespace Moment

def Returned (m : Moment) : Prop := m.call.Returns m.acx

/-- The words of the display named by the lines that a call prints itself. -/
def displayed (m : Moment) : List Int :=
  match m.call with
  | .address name reg => (pathAddress name (stabResolveVar m.acx.st name) reg).displayed m.acx
  | .prologue off => (prologue off).displayed m.acx
  | .epilogue retslot off captured => (epilogue retslot off captured).displayed m.acx
  | .globals => (storeGlobals m.acx.st.innermost.vars.entries).displayed m.acx
  | _ => []

/-- The table when the variable at the root of a path has its slot. -/
def settled (m : Moment) : Stab × Int :=
  match m.call with
  | .address name reg =>
      match pathAddress name (stabResolveVar m.acx.st name) reg m.acx with
      | .error _ => m.acx.table
      | .ok (_, acx, _) => acx.table
  | _ => m.acx.table

/-- The variables whose words of the display an epilogue is to restore. -/
def restored (m : Moment) : List StabVar :=
  match m.call with
  | .epilogue _ _ captured => captured
  | _ => []

/-- The variable that the root of a path resolves to when it is not of the innermost scope. -/
def nonlocal (m : Moment) : Option Index :=
  match m.call with
  | .address name _ =>
      if stabHasLocalVar m.acx.st name = false then some (stabResolveVar m.acx.st name) else none
  | _ => none

/-- The table goes on by steps, the variables to restore are captured ones of it, and a variable
that is used is in it. -/
structure Settles (m : Moment) : Prop where
  steps : StabSteps m.acx.table m.settled
  captured : ∀ v ∈ m.restored, ∃ i, stabVar m.acx.st i = some v ∧ v.captured = true
  used : ∀ i, m.nonlocal = some i → ∃ v, stabVar m.acx.st i = some v

structure Declares (m : Moment) (name : Name) (sig : AstSig) (st : Stab) : Prop where
  call : m.call = .declare (.func name sig)
  added : stabAddFunc m.acx.st name sig = .ok st

end Moment

/-! ## Where the names of subprograms come from -/

/-- What a name of a subprogram has in a table: no index, the one it had before, that of a magic
function, or the one that a moment has declared. -/
inductive Origin (s : Stab × Int) (ms : List Moment) (t : Stab × Int) (name : Name) (i : Index) :
    Prop where
  | unbound (failed : i = resolveFailure)
  | before {sc : StabScope} (open_ : sc ∈ s.1.chain) (bound : sc.funcs.lookup name = i)
  | magic {u : StabType} (found : stabType t.1 i = some u) (magic : u.magic ≠ none)
  | declared {m : Moment} {sig : AstSig} {st : Stab} (member : m ∈ ms)
      (declares : m.Declares name sig st) (bound : stabResolveFunc st name = i)
      (later : StabSteps (st, m.acx.dispOffset) t)

/-- A later table, whose names of subprograms were there before or are declared by the moments. -/
structure Since (s : Stab × Int) (ms : List Moment) (t : Stab × Int) : Prop where
  steps : StabSteps s t
  functions : ∀ sc ∈ t.1.chain, ∀ name, Origin s ms t name (sc.funcs.lookup name)

section

variable {s t u : Stab × Int} {ms ns : List Moment} {name : Name} {i : Index}

theorem Origin.later (origin : Origin s ms t name i) (steps : StabSteps t u) :
    Origin s ms u name i := by
  cases origin with
  | unbound failed => exact .unbound failed
  | before open_ bound => exact .before open_ bound
  | magic found magic => exact .magic (stabType_mono steps.grows.types found) magic
  | declared member declares bound later => exact .declared member declares bound (later.trans steps)

theorem Origin.mono (origin : Origin s ms t name i) (more : ms ⊆ ns) : Origin s ns t name i := by
  cases origin with
  | unbound failed => exact .unbound failed
  | before open_ bound => exact .before open_ bound
  | magic found magic => exact .magic found magic
  | declared member declares bound later => exact .declared (more member) declares bound later

namespace Since

theorem of_keeps (steps : StabSteps s t) (keeps : KeepsFuncs s.1 t.1) : Since s ms t := by
  refine ⟨steps, ?_⟩
  intro sc' member name
  rcases keeps sc' member with empty | ⟨sc, open_, same⟩
  · rw [empty]
    exact .unbound (NameTable.lookup_empty name)
  · rw [same]
    exact .before open_ rfl

protected theorem refl : Since s ms s := of_keeps .refl (.refl s.1)

theorem mono (since : Since s ms t) (more : ms ⊆ ns) : Since s ns t :=
  ⟨since.steps, fun sc open_ name => (since.functions sc open_ name).mono more⟩

theorem trans (first : Since s ms t) (second : Since t ns u) : Since s (ms ++ ns) u := by
  refine ⟨first.steps.trans second.steps, ?_⟩
  intro sc' open' name
  cases second.functions sc' open' name with
  | unbound failed => exact .unbound failed
  | before open_ bound =>
    rw [← bound]
    exact ((first.functions _ open_ name).later second.steps).mono (List.subset_append_left ms ns)
  | magic found magic => exact .magic found magic
  | declared member declares bound later =>
    exact .declared (List.mem_append_right ms member) declares bound later

end Since

end

/-- What a step that returns has done, told by its moments. -/
structure Ends (s : Stab × Int) (ms : List Moment) (s' : Stab × Int) (code : List Insn) : Prop where
  since : Since s ms s'
  kept : ∀ m ∈ ms, StabSteps m.settled s'
  printed : displayed code = ms.flatMap Moment.displayed
  captures : ∀ (i : Int) v, stabVar s'.1 i = some v → v.captured = true →
    stabVar s.1 i = some v ∨ ∃ m ∈ ms, m.nonlocal = some i
  returned : ∀ m ∈ ms, m.Returned

namespace Ends

variable {s s' s'' : Stab × Int} {ms ns : List Moment} {code code' : List Insn}

theorem steps (ends : Ends s ms s' code) : StabSteps s s' := ends.since.steps

theorem silent (since : Since s [] s') (same : s'.2 = s.2) (quiet : displayed code = []) :
    Ends s [] s' code := by
  refine ⟨since, fun _ member => absurd member List.not_mem_nil, quiet, ?_,
    fun _ member => absurd member List.not_mem_nil⟩
  exact fun i v found captured => .inl (since.steps.captured_before same found captured)

theorem append (first : Ends s ms s' code) (second : Ends s' ns s'' code') :
    Ends s (ms ++ ns) s'' (code ++ code') := by
  refine ⟨first.since.trans second.since, ?_, ?_, ?_, ?_⟩
  · intro m member
    rcases List.mem_append.mp member with member | member
    · exact (first.kept m member).trans second.steps
    · exact second.kept m member
  · rw [displayed_append, List.flatMap_append, first.printed, second.printed]
  · intro i v found captured
    rcases second.captures i v found captured with before | ⟨m, member, use⟩
    · rcases first.captures i v before captured with start | ⟨m, member, use⟩
      · exact .inl start
      · exact .inr ⟨m, List.mem_append_left _ member, use⟩
    · exact .inr ⟨m, List.mem_append_right _ member, use⟩
  · intro m member
    exact (List.mem_append.mp member).elim (first.returned m) (second.returned m)

theorem cons {m : Moment} (start : m.settled = s) (quiet : m.displayed = []) (returned : m.Returned)
    (rest : Ends s ms s' code) : Ends s (m :: ms) s' code := by
  refine ⟨rest.since.mono (List.subset_cons_self m ms), ?_, ?_, ?_,
    List.forall_mem_cons.mpr ⟨returned, rest.returned⟩⟩
  · rw [List.forall_mem_cons, start]
    exact ⟨rest.steps, rest.kept⟩
  · rw [List.flatMap_cons, quiet, rest.printed]
    rfl
  · intro i v found captured
    rcases rest.captures i v found captured with before | ⟨n, member, use⟩
    · exact .inl before
    · exact .inr ⟨n, List.mem_cons_of_mem _ member, use⟩

end Ends

/-- The moments of a step are in order, between its start and its end, and the lines that name
words of the display are printed by them. -/
structure Follows {α : Type} (x : Analysis α) (t : Tracer) (acx : Acx) : Prop where
  since : ∀ m ∈ t acx, Since acx.table (t acx) m.acx.table
  settled : ∀ m ∈ t acx, m.Settles
  ordered : (t acx).Pairwise fun m n => StabSteps m.settled n.acx.table
  ended : ∀ a acx' code, x acx = .ok (a, acx', code) → Ends acx.table (t acx) acx'.table code

namespace Follows

variable {α β : Type} {x : Analysis α} {f : α → Analysis β} {t : Tracer} {acx : Acx}

theorem reached (follows : Follows x t acx) : ∀ m ∈ t acx, StabSteps acx.table m.acx.table :=
  fun m member => (follows.since m member).steps

theorem congr {t' : Tracer} (same : t acx = t' acx) (rest : Follows x t acx) : Follows x t' acx :=
  ⟨same ▸ rest.since, same ▸ rest.settled, same ▸ rest.ordered, same ▸ rest.ended⟩

theorem of_quiet (since : ∀ a acx' code, x acx = .ok (a, acx', code) →
    Since acx.table [] acx'.table ∧ acx'.dispOffset = acx.dispOffset ∧ Dragon.displayed code = []) :
    Follows x quiet acx where
  since _ member := absurd member List.not_mem_nil
  settled _ member := absurd member List.not_mem_nil
  ordered := List.Pairwise.nil
  ended a acx' code run :=
    .silent (since a acx' code run).1 (since a acx' code run).2.1 (since a acx' code run).2.2

theorem of_table (same : ∀ a acx' code, x acx = .ok (a, acx', code) →
    acx'.table = acx.table ∧ Dragon.displayed code = []) : Follows x quiet acx := by
  apply of_quiet
  intro a acx' code run
  obtain ⟨table, silent⟩ := same a acx' code run
  refine ⟨?_, congrArg Prod.snd table, silent⟩
  rw [table]
  exact .refl

theorem stops {s : Stop} (stopped : x acx = .error s) : Follows x quiet acx := by
  apply of_quiet
  intro a acx' code run
  rw [stopped] at run
  cases run

protected theorem bind {tx : Tracer} {tf : α → Tracer} (sound : acx.st.Sound)
    (first : Follows x tx acx) (second : ∀ a acx' code, x acx = .ok (a, acx', code) →
      acx'.st.Sound → Follows (f a) (tf a) acx') : Follows (x >>= f) (x.follow tx tf) acx := by
  cases result : x acx with
  | error s =>
    have trace : x.follow tx tf acx = tx acx := by
      simp only [follow, result, List.append_nil]
    refine ⟨trace ▸ first.since, trace ▸ first.settled, trace ▸ first.ordered, ?_⟩
    intro b acx' code run
    rw [bind_eq_error.mpr (.inl result)] at run
    cases run
  | ok r =>
    obtain ⟨a, acx₁, code₁⟩ := r
    have trace : x.follow tx tf acx = tx acx ++ tf a acx₁ := by
      simp only [follow, result]
    have ends := first.ended a acx₁ code₁ result
    have rest := second a acx₁ code₁ result (ends.steps.sound sound)
    refine ⟨?_, ?_, ?_, ?_⟩
    · intro m member
      rw [trace] at member ⊢
      rcases List.mem_append.mp member with member | member
      · exact (first.since m member).mono (List.subset_append_left ..)
      · exact ends.since.trans (rest.since m member)
    · intro m member
      rw [trace] at member
      rcases List.mem_append.mp member with member | member
      · exact first.settled m member
      · exact rest.settled m member
    · rw [trace, List.pairwise_append]
      exact ⟨first.ordered, rest.ordered,
        fun m one n two => (ends.kept m one).trans (rest.reached n two)⟩
    · intro b acx' code run
      obtain ⟨a', acx₁', _, code₂, again, run₂, rfl⟩ := bind_eq_ok.mp run
      cases result.symm.trans again
      rw [trace]
      exact ends.append (rest.ended b acx' code₂ run₂)

theorem skip {a : α} {code : List Insn} (run : x acx = .ok (a, acx, code))
    (silent : Dragon.displayed code = []) (rest : Follows (f a) t acx) :
    Follows (x >>= f) t acx := by
  refine ⟨rest.since, rest.settled, rest.ordered, ?_⟩
  intro b acx' code' both
  obtain ⟨a', acx₁, code₁, code₂, again, second, rfl⟩ := bind_eq_ok.mp both
  cases run.symm.trans again
  exact (Ends.silent .refl rfl silent).append (rest.ended b acx' code₂ second)

theorem pure_bind {a : α} (rest : Follows (f a) t acx) :
    Follows ((pure a : Analysis α) >>= f) t acx := skip rfl rfl rest

theorem get_bind {f : Acx → Analysis β} (rest : Follows (f acx) t acx) :
    Follows (get >>= f) t acx := skip rfl rfl rest

theorem last (sound : acx.st.Sound) (first : Follows x t acx)
    (rest : ∀ a acx' code, x acx = .ok (a, acx', code) → acx'.st.Sound →
      Follows (f a) quiet acx') : Follows (x >>= f) t acx := by
  have whole := Follows.bind sound first rest
  have trace : x.follow t (fun _ => quiet) acx = t acx := by
    unfold follow
    cases x acx <;> exact List.append_nil _
  exact ⟨trace ▸ whole.since, trace ▸ whole.settled, trace ▸ whole.ordered, trace ▸ whole.ended⟩

theorem cons {c : Call} (start : (⟨c, acx⟩ : Moment).settled = acx.table)
    (nothing : (⟨c, acx⟩ : Moment).restored = [] ∧ (⟨c, acx⟩ : Moment).nonlocal = none)
    (silent : (⟨c, acx⟩ : Moment).displayed = []) (returns : x.Returns acx → c.Returns acx)
    (rest : Follows x t acx) : Follows x (fun acx => ⟨c, acx⟩ :: t acx) acx := by
  refine ⟨?_, ?_, ?_, ?_⟩
  · intro m member
    rcases List.mem_cons.mp member with rfl | member
    · exact .refl
    · exact (rest.since m member).mono (List.subset_cons_self _ _)
  · intro m member
    rcases List.mem_cons.mp member with rfl | member
    · refine ⟨start.symm ▸ .refl, ?_, ?_⟩
      · rw [nothing.1]
        exact fun v inside => absurd inside List.not_mem_nil
      · rw [nothing.2]
        exact fun i use => by cases use
    · exact rest.settled m member
  · rw [List.pairwise_cons]
    refine ⟨?_, rest.ordered⟩
    intro m member
    rw [start]
    exact rest.reached m member
  · intro a acx' code run
    exact (rest.ended a acx' code run).cons start silent (returns ⟨_, run⟩)

theorem finish (sound : acx.st.Sound) (rest : Follows x t acx) :
    Follows x (x.follow t fun _ => here .finished) acx := by
  have end_ : ∀ (a : α) (acx' : Acx), Follows (pure a : Analysis α) (here .finished) acx' := by
    intro a acx'
    refine cons rfl ⟨rfl, rfl⟩ rfl (fun _ => trivial) ?_
    apply of_table
    intro b acx'' code run
    obtain ⟨-, rfl, rfl⟩ := pure_eq_ok.mp run
    exact ⟨rfl, rfl⟩
  have whole : Follows (x >>= pure) (x.follow t fun _ => here .finished) acx :=
    Follows.bind sound rest fun a acx' _ _ _ => end_ a acx'
  have same : ∀ {a : α} {acx' : Acx} {code : List Insn}, x acx = .ok (a, acx', code) →
      (x >>= pure) acx = .ok (a, acx', code) := fun run =>
    bind_eq_ok.mpr ⟨_, _, _, [], run, pure_eq_ok.mpr ⟨rfl, rfl, rfl⟩, (List.append_nil _).symm⟩
  exact ⟨whole.since, whole.settled, whole.ordered,
    fun a acx' code run => whole.ended a acx' code (same run)⟩

theorem traced {c : Call} (sound : acx.st.Sound) (start : (⟨c, acx⟩ : Moment).settled = acx.table)
    (nothing : (⟨c, acx⟩ : Moment).restored = [] ∧ (⟨c, acx⟩ : Moment).nonlocal = none)
    (silent : (⟨c, acx⟩ : Moment).displayed = []) (returns : x.Returns acx → c.Returns acx)
    (rest : Follows x t acx) : Follows x (Dragon.traced c x t) acx :=
  cons start nothing silent returns (rest.finish sound)

end Follows

end Dragon
