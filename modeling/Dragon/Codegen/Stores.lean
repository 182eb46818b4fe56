import Dragon.Codegen.Loads
import Dragon.Codegen.Scoping

/-! Where the display is set.

The prologue of main stores the addresses of the variables it finds captured in
its scope; that of a subprogram prints a line that is no instruction instead.
What is captured later, as in a for loop of main, is loaded from a slot that was
never set, and so is what HFOREACH does not come to.
-/

set_option autoImplicit false

namespace Dragon

open Analysis Stab

def Pushed (st st' : Stab) (i : Int) : Prop := st.vars.length ≤ i ∧ i < st'.vars.length

/-- stab_add_func of a subprogram of a list enters the variable, into the scope around the list. -/
inductive SignatureOf (i : Int) : List AstSubdecl → Acx → Prop where
  | here {d : AstSubdecl} {subprogs : List AstSubdecl} {acx : Acx} {st : Stab}
      (added : stabAddFunc acx.st d.name d.head = .ok st) (pushed : Pushed acx.st st i) :
      SignatureOf i (d :: subprogs) acx
  | later {d : AstSubdecl} {subprogs : List AstSubdecl} {acx acx₁ : Acx} {st : Stab}
      {code : List Insn} (added : stabAddFunc acx.st d.name d.head = .ok st)
      (first : analyzeSubprog d (acx.setSt st) = .ok ((), acx₁, code))
      (rest : SignatureOf i subprogs acx₁) : SignatureOf i (d :: subprogs) acx

def DeclaredIn (i : Int) (d : AstSubdecl) (start : Acx) : Prop :=
  ∃ slot acx opening, openSubprog d.head d.name d.types d.decls start = .ok (slot, acx, opening) ∧
    (Pushed start.st acx.st i ∨ SignatureOf i d.subprogs acx)

/-- The variable has a slot, and some line of the program loads from it. -/
structure Accessed (st : Stab) (code : List Insn) (i : Int) (v : StabVar) : Prop where
  found : stabVar st i = some v
  slot : v.captured = true
  load : ∃ r, Insn.loadDisplay r (v.dispOffset * abiPointerAlign) ∈ code

theorem mem_displayLoads {code : List Insn} {d : Int} :
    d ∈ displayLoads code ↔ ∃ r, Insn.loadDisplay r d ∈ code := by
  unfold displayLoads
  rw [List.mem_filterMap]
  constructor
  · rintro ⟨i, member, here⟩
    cases i <;> cases here
    exact ⟨_, member⟩
  · rintro ⟨r, member⟩
    exact ⟨_, member, rfl⟩

/-! ## What a prologue finds -/

namespace AtPrologue

variable {inner : Acx} {nested : List Insn} {final : Stab × Int} {i : Int} {v : StabVar}

end AtPrologue

/-! ## Contexts of prologues -/

theorem Parts.closes {d : AstSubdecl} {start inner acx' : Acx} {retslot : Index} {off : Int}
    {nested own code : List Insn} {u : Unit} (parts : Parts d start inner retslot off nested own)
    (run : analyzeSubprog d start = .ok (u, acx', code)) : StabSteps inner.table acx'.table := by
  cases d with
  | mk head name decls subprogs types body =>
    obtain ⟨acx₁, opened, ran⟩ := parts.nested
    obtain ⟨acx₂, owned⟩ := parts.own
    simp only [analyzeSubprog, get_bind_eq_ok] at run
    rw [bind_eq_ok] at run
    obtain ⟨⟨retslot', off'⟩, acx₃, _, _, opened', run, -⟩ := run
    cases Except.ok.inj (opened.symm.trans opened')
    rw [bind_eq_ok] at run
    obtain ⟨_, acx₄, _, _, ran', run, -⟩ := run
    cases Except.ok.inj (ran.symm.trans ran')
    rw [bind_eq_ok] at run
    obtain ⟨_, acx₅, _, _, owned', run, -⟩ := run
    cases Except.ok.inj (owned.symm.trans owned')
    obtain ⟨st, leave, rfl, -⟩ := closeSubprog_eq_ok.mp run
    obtain ⟨captured, bodyCode, slot, own⟩ := ownCode_run owned
    exact own.run.steps.tail (.leave leave)

theorem Visits.rest {subprogs : List AstSubdecl} {acx start acx' : Acx} {path : List Nat}
    {d : AstSubdecl} {before code : List Insn} {u : Unit}
    (visits : Visits subprogs acx path d start before) (sound : acx.st.Sound)
    (run : analyzeSubprogs subprogs acx = .ok (u, acx', code)) :
    ∃ acx₁ printed, analyzeSubprog d start = .ok ((), acx₁, printed) ∧
      StabSteps acx₁.table acx'.table := by
  induction visits generalizing acx' code with
  | @here d subprogs acx st added =>
    obtain ⟨st', acx₁, code₁, code₂, added', first, rest, -⟩ := analyzeSubprogs_cons run
    obtain rfl := Except.ok.inj (added.symm.trans added')
    have steps : StabSteps acx.table (st, acx.dispOffset) := stabAddFunc_steps acx.dispOffset sound added
    have sound₁ := (analyzeSubprog_run d first).steps (steps.sound sound)
    exact ⟨acx₁, code₁, first, (analyzeSubprogs_run _ rest).steps (sound₁.sound (steps.sound sound))⟩
  | @inside d e subprogs acx acx₁ start st slot path opening before added opened _ ih =>
    obtain ⟨st', acx₂, code₁, code₂, added', first, rest, -⟩ := analyzeSubprogs_cons run
    obtain rfl := Except.ok.inj (added.symm.trans added')
    have steps : StabSteps acx.table (st, acx.dispOffset) := stabAddFunc_steps acx.dispOffset sound added
    have sound₁ : st.Sound := steps.sound sound
    obtain ⟨inner, retslot, off, nested, own, parts, -⟩ := analyzeSubprog_parts first
    obtain ⟨acx₃, opened', ran⟩ := parts.nested
    cases Except.ok.inj (opened.symm.trans opened')
    have entered := @openSubprog_steps _ _ _ _ (acx.setSt st) _ _ _ sound₁ opened
    obtain ⟨acx₄, printed, there, more⟩ := ih (entered.sound sound₁) ran
    have sound₂ := ((analyzeSubprog_run d first).steps sound₁).sound sound₁
    exact ⟨acx₄, printed, there,
      (more.trans (parts.closes first)).trans ((analyzeSubprogs_run _ rest).steps sound₂)⟩
  | @later d e subprogs acx acx₁ start st k path code before added first _ ih =>
    obtain ⟨st', acx₂, code₁, code₂, added', first', rest, -⟩ := analyzeSubprogs_cons run
    obtain rfl := Except.ok.inj (added.symm.trans added')
    cases Except.ok.inj (first.symm.trans first')
    have steps : StabSteps acx.table (st, acx.dispOffset) := stabAddFunc_steps acx.dispOffset sound added
    have sound₁ := ((analyzeSubprog_run d first).steps (steps.sound sound)).sound (steps.sound sound)
    exact ih sound₁ rest

theorem analyze_parts {prog : AstProgram} {acx' : Acx} {code : List Insn}
    (accepted : analyze prog = .ok (acx', code)) :
    ∃ off acx inner opening nested main, openProgram prog initialAcx = .ok (off, acx, opening) ∧
      analyzeSubprogs prog.subprogs acx = .ok ((), inner, nested) ∧
      mainCode off prog.body inner = .ok ((), acx', main) ∧ code = opening ++ (nested ++ main) := by
  unfold analyze at accepted
  cases result : analyzeProgram prog initialAcx with
  | error s => simp [result] at accepted
  | ok r =>
    obtain ⟨u, acx₀, code₀⟩ := r
    simp only [result, Except.ok.injEq, Prod.mk.injEq] at accepted
    obtain ⟨rfl, rfl⟩ := accepted
    simp only [analyzeProgram] at result
    rw [bind_eq_ok] at result
    obtain ⟨off, acx, opening, _, opened, run, rfl⟩ := result
    rw [bind_eq_ok] at run
    obtain ⟨_, inner, nested, main, ran, last, rfl⟩ := run
    exact ⟨off, acx, inner, opening, nested, main, opened, ran, last, rfl⟩

theorem openSubprog_slots {head : AstSig} {name : Name} {types : List AstTypeDecl}
    {decls : List AstDecls} {acx acx' : Acx} {slot : Index × Int} {code : List Insn}
    (opened : openSubprog head name types decls acx = .ok (slot, acx', code)) :
    acx'.dispOffset = acx.dispOffset := by
  obtain ⟨st, -, rfl, -⟩ := openSubprog_eq_ok.mp opened
  rfl

theorem Parts.free {d : AstSubdecl} {start inner acx : Acx} {slot : Index × Int}
    {nested opening : List Insn} (sound : start.st.Sound)
    (opened : openSubprog d.head d.name d.types d.decls start = .ok (slot, acx, opening))
    (ran : analyzeSubprogs d.subprogs acx = .ok ((), inner, nested)) (n : Name) (v : StabVar)
    (found : stabVar acx.st (inner.st.innermost.vars.lookup n) = some v) : v.captured = false := by
  by_contra captured
  have steps : StabSteps start.table acx.table := openSubprog_steps sound opened
  rcases steps.fresh found (by simpa using captured) with before | ⟨low, high⟩
  · -- the scope was empty at the start, so its bindings are new
    have extends_ : Extends (stabEnter start.st) inner.st := by
      obtain ⟨st, entered, rfl, -⟩ := openSubprog_eq_ok.mp opened
      exact entered.extends_.trans (analyzeSubprogs_run _ ran).scopes
    have bounds := arenaGet_lt before
    rcases extends_.bound n with empty | ⟨above, -⟩
    · rw [empty] at bounds
      simp [stabEnter, stabScopeNew, resolveFailure] at bounds
    · exact absurd bounds.2 (Int.not_lt.mpr above)
  · have same : acx.table.2 = start.table.2 := openSubprog_slots opened
    omega

theorem Acx.use_vars_length (acx : Acx) (name : Name) (idx : Index) (v : StabVar) :
    (acx.use name idx v).st.vars.length = acx.st.vars.length := by
  unfold Acx.use
  split
  · simp [setVar]
  · rfl

theorem PathRun.vars_length {p : AstPath} {rv : Bool} {acx acx' : Acx} {v : StabVar}
    {lines : RegName → List Insn} (path : PathRun p rv acx v acx' lines) :
    acx'.st.vars.length = acx.st.vars.length := by
  rw [path.used]
  exact acx.use_vars_length ..

theorem Run.vars_length {node : Node} {acx acx' : Acx} {results : List Resu} {code : List Insn}
    (run : Run node acx results acx' code) : acx'.st.vars.length = acx.st.vars.length := by
  induction run with
  | lit => rfl
  | path path => exact path.vars_length
  | deref path _ _ => exact path.vars_length
  | idx path _ _ _ _ ih => exact ih.trans path.vars_length
  | bin _ _ _ _ ih₁ ih₂ => exact ih₂.trans ih₁
  | un _ _ _ ih => exact ih
  | app _ ih => exact ih
  | magic _ _ _ ih => exact ih
  | call _ _ _ _ ih => exact ih
  | noActuals => rfl
  | actual _ _ _ _ ih₁ ih₂ => exact ih₂.trans ih₁
  | wrote => rfl
  | write _ _ _ ih₁ ih₂ => exact ih₂.trans ih₁
  | read_ => rfl
  | read _ _ _ _ ih₁ ih₂ => exact ih₂.trans ih₁

theorem stabLeave_vars {st st' : Stab} (left : stabLeave st = .ok st') : st'.vars = st.vars := by
  obtain ⟨sc, rest, -, rfl⟩ := stabLeave_eq_ok.mp left
  rfl

theorem StmtRun.vars_length {node : StmtNode} {acx acx' : Acx} {code : List Insn}
    (run : StmtRun node acx acx' code) : acx'.st.vars.length = acx.st.vars.length := by
  induction run with
  | null => rfl
  | assign left target right _ first second =>
    subst first second
    obtain ⟨b, rfl⟩ := target.assigned
    exact right.vars_length.trans left.vars_length
  | foor first last _ _ path _ _ back back' leave ih =>
    subst back back'
    have before := path.vars_length.trans (last.vars_length.trans first.vars_length)
    exact (congrArg List.length (stabLeave_vars leave)).trans (ih.trans before)
  | ite test _ _ _ ih₁ ih₂ => exact ih₂.trans (ih₁.trans test.vars_length)
  | proc call => exact call.vars_length
  | stmts _ ih => exact ih
  | wdo test _ _ ih => exact ih.trans test.vars_length
  | nil => rfl
  | cons _ _ ih₁ ih₂ => exact ih₂.trans ih₁

mutual

theorem subprog_declares {i : Int} : ∀ (d : AstSubdecl) {start acx' : Acx} {u : Unit}
    {code : List Insn}, analyzeSubprog d start = .ok (u, acx', code) → Pushed start.st acx'.st i →
      DeclaredIn i d start ∨ ∃ slot acx opening path e start' before,
        openSubprog d.head d.name d.types d.decls start = .ok (slot, acx, opening) ∧
        Visits d.subprogs acx path e start' before ∧ DeclaredIn i e start'
  | .mk head name decls subprogs types body, start, acx', _, _, run, pushed => by
      simp only [analyzeSubprog, get_bind_eq_ok] at run
      rw [bind_eq_ok] at run
      obtain ⟨slot, acx, opening, _, opened, run, -⟩ := run
      rw [bind_eq_ok] at run
      obtain ⟨_, inner, _, _, ran, run, -⟩ := run
      rw [bind_eq_ok] at run
      obtain ⟨_, acx₂, _, _, owned, run, -⟩ := run
      obtain ⟨st, leave, rfl, -⟩ := closeSubprog_eq_ok.mp run
      obtain ⟨captured, bodyCode, slot', own⟩ := ownCode_run owned
      have same : st.vars.length = inner.st.vars.length :=
        (congrArg List.length (stabLeave_vars leave)).trans own.run.vars_length
      have high : i < st.vars.length := pushed.2
      rw [same] at high
      by_cases early : i < acx.st.vars.length
      · exact .inl ⟨slot, acx, opening, opened, .inl ⟨pushed.1, early⟩⟩
      · rcases subprogs_declare subprogs ran ⟨Int.not_lt.mp early, high⟩ with
          signature | ⟨path, e, start', before, visits, declared⟩
        · exact .inl ⟨slot, acx, opening, opened, .inr signature⟩
        · exact .inr ⟨slot, acx, opening, path, e, start', before, opened, visits, declared⟩

theorem subprogs_declare {i : Int} : ∀ (subprogs : List AstSubdecl) {acx acx' : Acx} {u : Unit}
    {code : List Insn}, analyzeSubprogs subprogs acx = .ok (u, acx', code) →
      Pushed acx.st acx'.st i → SignatureOf i subprogs acx ∨
        ∃ path d start before, Visits subprogs acx path d start before ∧ DeclaredIn i d start
  | [], acx, acx', _, _, run, pushed => by
      simp only [analyzeSubprogs, pure_eq_ok] at run
      obtain ⟨-, rfl, -⟩ := run
      exact absurd pushed.1 (Int.not_le.mpr pushed.2)
  | d :: subprogs, acx, acx', _, _, run, pushed => by
      obtain ⟨st, acx₁, code₁, code₂, added, first, rest, -⟩ := analyzeSubprogs_cons run
      by_cases signature : i < st.vars.length
      · exact .inl (.here added ⟨pushed.1, signature⟩)
      by_cases inside : i < acx₁.st.vars.length
      · right
        rcases subprog_declares d first ⟨Int.not_lt.mp signature, inside⟩ with
          declared | ⟨slot, acx₂, opening, path, e, start, before, opened, visits, declared⟩
        · exact ⟨[0], d, _, _, .here added, declared⟩
        · exact ⟨0 :: path, e, start, _, .inside added opened visits, declared⟩
      · rcases subprogs_declare subprogs rest ⟨Int.not_lt.mp inside, pushed.2⟩ with
          later | ⟨path, e, start, before, visits, declared⟩
        · exact .inl (.later added first later)
        · cases path with
          | nil => cases visits
          | cons k path => exact .inr ⟨(k + 1) :: path, e, start, _, .later added first visits, declared⟩

end

-- var x: integer; procedure q; begin x := 1 end; begin q end.
def sharedGlobal : AstProgram where
  args := []
  decls := [⟨["x"], .integer⟩]
  subprogs := [.mk ⟨.procedure, [], none⟩ "q" [] [] [] (.assign (.path (astPath "x")) (.lit "1"))]
  types := []
  body := .stmts [.proc (astPath "q") []]

/-- The first variable of an accepted program, with the offsets that are loaded from. -/
def firstLoaded (prog : AstProgram) : Option (StabVar × List Int) := do
  let (acx, code) ← (analyze prog).toOption
  let v ← stabVar acx.st 0
  some (v, displayLoads code)

theorem accessed_of_firstLoaded {prog : AstProgram} {v : StabVar} {loads : List Int}
    (loaded : firstLoaded prog = some (v, loads)) (slot : v.captured = true)
    (member : v.dispOffset * abiPointerAlign ∈ loads) :
    ∃ acx code, analyze prog = .ok (acx, code) ∧ Accessed acx.st code 0 v := by
  unfold firstLoaded at loaded
  cases result : analyze prog with
  | error s =>
    rw [result] at loaded
    cases loaded
  | ok r =>
    obtain ⟨acx, code⟩ := r
    simp only [result, Except.toOption, Option.bind_eq_bind, Option.bind_some,
      Option.bind_eq_some_iff, Option.some.injEq, Prod.mk.injEq] at loaded
    obtain ⟨w, found, rfl, rfl⟩ := loaded
    exact ⟨acx, code, rfl, found, slot, mem_displayLoads.mp member⟩

theorem sharedGlobal_loaded : firstLoaded sharedGlobal = some (⟨0, "x", 0, 0, true⟩, [0]) := by
  decide +kernel

theorem sharedGlobal_accepted : ∃ acx code, analyze sharedGlobal = .ok (acx, code) := by
  obtain ⟨acx, code, result, -⟩ :=
    accessed_of_firstLoaded sharedGlobal_loaded rfl List.mem_cons_self
  exact ⟨acx, code, result⟩

end Dragon
