import Dragon.Codegen.Failures

/-! Which programs make the analyzer fail.

The moments of a run that are not safe are exactly the calls at which it fails
internally.
-/

set_option autoImplicit false

namespace Dragon

open Analysis Stab

/-! ## Statements -/

theorem reports_checkRoot (name : Name) (acx : Acx) : Reports (checkRoot name) acx := by
  rw [checkRoot, reports_get_bind]
  split
  next => exact reports_spanErr _
  next => exact reports_modify _

theorem reports_checkAssignability_deref (p : AstPath) (acx : Acx) :
    Reports (checkAssignability (.deref (.path p))) acx ↔ acx.Passes p := by
  -- check_assignability fails on the target of a pointer that it does not refuse
  rw [checkAssignability, reports_get_bind]
  unfold Acx.Passes
  by_cases toplevel : acx.toplevel = true
  · rw [if_pos toplevel]
    exact iff_of_true (reports_pure ()) (.inl toplevel)
  · rw [if_neg toplevel, or_iff_right toplevel]
    simp only [checkTarget, checkRoot, reports_assoc, reports_get_bind]
    by_cases refused : acx.currentFuncType = .function ∧ stabHasLocalVar acx.st p.first = false
    · rw [if_pos refused]
      apply iff_of_true _ refused
      apply reports_bind.mpr
      refine ⟨reports_spanErr _, ?_⟩
      intro u acx' code run
      simp at run
    · rw [if_neg refused, reports_modify_bind, reports_stop]
      exact iff_of_false id refused

theorem judged_target {e : AstExpr} (lvalue : isLvalue e = true) (written : e.written = true)
    (acx : Acx) :
    Judged (checkAssignability e) (traced (.target e) (checkAssignability e) quiet) acx := by
  have nothing : ∀ m ∈ quiet acx, m.Ends := fun m member => absurd member List.not_mem_nil
  have plain : ∀ e : AstExpr, (∀ acx, Reports (checkTarget e) acx) →
      Judged (checkAssignability e) quiet acx := by
    intro e reports
    apply Judged.silent
    rw [checkAssignability, reports_get_bind]
    split
    next => exact reports_pure ()
    next => exact reports acx
  cases e with
  | path p =>
    apply Judged.traced
    · trivial
    · exact plain _ (reports_checkRoot p.first)
  | idx p e =>
    apply Judged.traced
    · trivial
    · apply plain
      exact fun acx => reports_bind.mpr ⟨reports_checkRoot p.first acx,
        fun _ acx' _ _ => reports_checkRoot p.first acx'⟩
  | deref e =>
    cases e with
    | path p =>
      constructor
      rw [Judged.forall_traced, and_iff_left nothing]
      exact reports_checkAssignability_deref p acx
    | _ => cases written
  | _ => cases lvalue

theorem judged_cond {cond : AstExpr} (message : String) {acx : Acx} (written : cond.written = true)
    (readable : acx.st.Readable) : Judged (analyzeCond cond message) (exprTrace cond true) acx := by
  apply Judged.last (judged_expr cond true written readable)
  intro cty acx₁ code _
  split
  next => exact reports_spanErr _
  next => exact reports_pure _

theorem judged_assign {lvalue rvalue : AstExpr} {acx : Acx} (target : isLvalue lvalue = true)
    (left : lvalue.written = true) (right : rvalue.written = true) (readable : acx.st.Readable) :
    Judged (analyzeStmt (.assign lvalue rvalue)) (assignTrace lvalue rvalue) acx := by
  apply Judged.bind readable (follows_expr lvalue false readable.sound)
    (judged_expr lvalue false left readable)
  intro lty acx₁ code₁ _ readable₁
  apply Judged.bind readable₁ (follows_target lvalue readable₁.sound) (judged_target target left acx₁)
  intro u acx₂ code₂ _ readable₂
  apply Judged.bind readable₂ (follows_expr rvalue true readable₂.sound)
    (judged_expr rvalue true right readable₂)
  intro rty acx₃ code₃ _ readable₃
  apply Judged.skip (x := get) rfl
  apply Judged.last (judged_typesEq rty.type lty.type readable₃.sound)
  intro same acx₄ code₄ _
  split
  next => exact reports_spanErr _
  next => simp

theorem judged_enter (acx : Acx) :
    Judged (modify fun acx => acx.setSt (stabEnter acx.st)) (here (.declare .enter)) acx :=
  Judged.here (iff_of_true (reports_modify _) trivial)

theorem judged_leave {acx : Acx} (open_ : acx.st.enclosing ≠ []) :
    Judged (withStab fun st => do return ((), ← stabLeave st)) (here (.declare .leave)) acx := by
  apply Judged.here
  apply iff_of_true _ trivial
  rw [reports_withStab]
  unfold stabLeave
  cases outer : acx.st.enclosing with
  | nil => exact absurd outer open_
  | cons sc rest => exact reported_ok _

mutual

theorem judged_stmt : ∀ (s : AstStmt) {acx : Acx}, s.written = true → acx.st.Readable →
    Judged (analyzeStmt s) (stmtTrace s) acx
  | .null, acx, _, _ => by
      apply Judged.traced
      · trivial
      exact .silent (reports_pure ())
  | .assign lvalue rvalue, acx, written, readable => by
      simp only [AstStmt.written, Bool.and_eq_true] at written
      apply Judged.traced
      · trivial
      exact judged_assign written.1 written.2.1 written.2.2 readable
  | .foor id start finish body, acx, written, readable => by
      simp only [AstStmt.written, Bool.and_eq_true] at written
      apply Judged.traced
      · trivial
      apply Judged.bind readable (follows_expr start true readable.sound)
        (judged_expr start true written.1 readable)
      intro sty acx₁ code₁ _ readable₁
      apply Judged.bind readable₁ (follows_expr finish true readable₁.sound)
        (judged_expr finish true written.2.1 readable₁)
      intro ety acx₂ code₂ _ readable₂
      by_cases integers : sty.type ≠ integerTypeIdx ∨ ety.type ≠ integerTypeIdx
      · rw [if_pos integers]
        apply Judged.silent
        by_cases first : sty.type = integerTypeIdx
        · rw [if_neg (not_not.mpr first), if_pos (integers.resolve_left (not_not.mpr first))]
          exact reports_spanErr _
        · rw [if_pos first]
          exact reports_spanErr _
      · rw [if_neg integers, if_neg (not_or.mp integers).1, if_neg (not_or.mp integers).2]
        apply Judged.bind readable₂ (follows_path (astPath id) false readable₂.sound)
          (judged_path (astPath id) false readable₂.sound)
        intro ity acx₃ code₃ _ readable₃
        split
        next => exact .silent (reports_spanErr _)
        next =>
          apply (judged_enter acx₃).andThen
          intro u acx₄ code₄ opened
          cases opened
          apply Judged.skip (x := emit _) rfl
          apply Judged.step (x := nextLabel) rfl
          apply Judged.step (x := nextLabel) rfl
          apply Judged.skip (x := emit _) rfl
          have readable₄ : (stabEnter acx₃.st).Readable := StabStep.readable (s := (acx₃.st, 0)) .enter readable₃
          apply (judged_stmt body written.2.2 readable₄).andThen
          intro u acx₅ code₅ loop
          have open_ : acx₅.st.enclosing ≠ [] := by
            rw [(analyzeStmt_run body loop).scopes.enclosing]
            exact List.cons_ne_nil _ _
          apply Judged.skip (x := emit _) rfl
          apply Judged.step (x := regTakeitback ety.reg) rfl
          apply Judged.step (x := regTakeitback sty.reg) rfl
          exact judged_leave open_
  | .ite cond thenn elze, acx, written, readable => by
      simp only [AstStmt.written, Bool.and_eq_true] at written
      apply Judged.traced
      · trivial
      apply Judged.bind readable (follows_cond cond _ readable.sound) (judged_cond _ written.1 readable)
      intro cty acx₁ code₁ _ readable₁
      apply Judged.bind readable₁ (Follows.nextLabel_ acx₁) (.silent reports_nextLabel)
      intro l₀ acx₂ code₂ _ readable₂
      apply Judged.bind readable₂ (Follows.nextLabel_ acx₂) (.silent reports_nextLabel)
      intro l₁ acx₃ code₃ _ readable₃
      apply Judged.skip (x := emit _) rfl
      apply Judged.bind readable₃ (Follows.regTakeitback_ cty.reg acx₃) (.silent (reports_regTakeitback _))
      intro u acx₄ code₄ _ readable₄
      apply Judged.bind readable₄ (follows_stmt thenn readable₄.sound)
        (judged_stmt thenn written.2.1 readable₄)
      intro u acx₅ code₅ _ readable₅
      apply Judged.skip (x := emit _) rfl
      apply Judged.last (judged_stmt elze written.2.2 readable₅)
      exact fun _ _ _ _ => reports_emit _
  | .proc p args, acx, written, readable => by
      apply Judged.traced
      · trivial
      have call := judged_call p args (judged_args args written) (follows_args args) readable
      rw [map_argsTrace] at call
      apply Judged.last call
      exact fun _ _ _ _ => reports_regTakeitback _
  | .stmts body, acx, written, readable => by
      apply Judged.traced
      · trivial
      exact judged_stmts body written readable
  | .wdo cond body, acx, written, readable => by
      simp only [AstStmt.written, Bool.and_eq_true] at written
      apply Judged.traced
      · trivial
      apply Judged.bind readable (Follows.nextLabel_ acx) (.silent reports_nextLabel)
      intro l₀ acx₁ code₁ _ readable₁
      apply Judged.bind readable₁ (Follows.nextLabel_ acx₁) (.silent reports_nextLabel)
      intro l₁ acx₂ code₂ _ readable₂
      apply Judged.skip (x := emit _) rfl
      apply Judged.bind readable₂ (follows_cond cond _ readable₂.sound)
        (judged_cond _ written.1 readable₂)
      intro cty acx₃ code₃ _ readable₃
      apply Judged.skip (x := emit _) rfl
      apply Judged.bind readable₃ (Follows.regTakeitback_ cty.reg acx₃) (.silent (reports_regTakeitback _))
      intro u acx₄ code₄ _ readable₄
      apply Judged.last (judged_stmt body written.2 readable₄)
      exact fun _ _ _ _ => reports_emit _

theorem judged_stmts : ∀ (body : List AstStmt) {acx : Acx}, stmtsWritten body = true →
    acx.st.Readable → Judged (analyzeStmts body) (stmtsTrace body) acx
  | [], acx, _, _ => .silent (reports_pure ())
  | s :: body, acx, written, readable => by
      rw [stmtsWritten, Bool.and_eq_true] at written
      apply Judged.bind readable (follows_stmt s readable.sound) (judged_stmt s written.1 readable)
      intro u acx₁ code _ readable₁
      exact judged_stmts body written.2 readable₁

end

/-! ## Subprograms -/

theorem judged_types {types : List AstTypeDecl} {acx : Acx}
    (written : ∀ t ∈ types, t.written = true) (readable : acx.st.Readable) :
    Judged (withStab fun st => do return ((), ← stabAddAllTypes st types)) (typesTrace types) acx := by
  induction types generalizing acx with
  | nil =>
    apply Judged.silent
    rw [reports_withStab]
    exact reported_ok _
  | cons t types ih =>
    rw [List.forall_mem_cons] at written
    apply Judged.of_eq (withStab_types t types acx)
    have added : Judged (addType t) (here (.declare (.type t))) acx := by
      apply Judged.here
      rw [addType, reports_withStab, reported_bind]
      exact (and_iff_left fun _ _ => reported_ok _).trans
        (reported_stabAddType readable.sound written.1)
    apply Judged.bind readable (follows_addType t readable.sound) added
    intro u acx₁ code _ readable₁
    exact ih written.2 readable₁

theorem judged_decls {decls : List AstDecls} (arguments : Bool) (off : Int) {acx : Acx}
    (written : ∀ d ∈ decls, d.written = true) (readable : acx.st.Readable) :
    Judged (withStab fun st => stabAddAllDecls st arguments decls off)
      (declsTrace arguments decls off) acx := by
  induction decls generalizing acx off with
  | nil =>
    apply Judged.silent
    rw [reports_withStab]
    exact reported_ok _
  | cons d decls ih =>
    rw [List.forall_mem_cons] at written
    apply Judged.of_eq (withStab_decls arguments d decls off acx)
    have added : Judged (withStab fun st => stabAddDecls st d off arguments)
        (here (.declare (.decls d arguments))) acx := by
      apply Judged.here
      rw [reports_withStab]
      exact reported_stabAddDecls readable.sound written.1
    apply Judged.bind readable (follows_addDecls arguments d off readable.sound) added
    intro off' acx₁ code _ readable₁
    exact ih off' written.2 readable₁

theorem judged_open {head : AstSig} (name : Name) {types : List AstTypeDecl} {decls : List AstDecls}
    {acx : Acx} (headWritten : head.written = true) (typesWritten : ∀ t ∈ types, t.written = true)
    (declsWritten : ∀ d ∈ decls, d.written = true) (readable : acx.st.Readable) :
    Judged (openSubprog head name types decls) (openTrace head name types decls) acx := by
  rw [AstSig.written, Bool.and_eq_true, List.all_eq_true] at headWritten
  apply Judged.bind readable (Follows.modify_ acx rfl) (.silent (reports_modify _))
  intro u acx₁ code₁ _ readable₁
  apply Judged.skip (x := emit _) rfl
  apply (judged_enter acx₁).andThen
  intro u acx₂ code₂ opened
  obtain ⟨rfl, -⟩ := modify_eq_ok.mp opened
  have readable₂ : (acx₁.setSt (stabEnter acx₁.st)).st.Readable :=
    StabStep.readable (s := acx₁.table) .enter readable₁
  apply Judged.bind readable₂ (follows_types types readable₂.sound) (judged_types typesWritten readable₂)
  intro u acx₃ code₃ _ readable₃
  apply Judged.bind readable₃ (follows_decls false head.args _ readable₃.sound)
    (judged_decls false _ headWritten.1 readable₃)
  intro off acx₄ code₄ _ readable₄
  apply Judged.bind readable₄ (follows_decls true decls 0 readable₄.sound)
    (judged_decls true 0 declsWritten readable₄)
  intro off acx₅ code₅ _ readable₅
  -- the return type is a standard one or void, so the slot has a type
  apply Judged.here
  apply iff_of_true _ trivial
  obtain ⟨i, resolved, low, high⟩ := stabResolveRetty_standard headWritten.2 acx₅.st
  obtain ⟨t, found⟩ := readable₅.sound.exists_builtin low high
  rw [reports_withStab_bind, resolved]
  refine ⟨reported_ok _, ?_⟩
  intro retty st same
  cases same
  rw [reports_withStab, reported_bind, reported_stabAddVar]
  have known : stabType (acx₅.setSt acx₅.st).st i = some t := found
  exact ⟨by simp [known], fun _ _ => reported_ok _⟩

theorem exists_slot {st st' : Stab} {name : Name} {type id : Index} {off off' : Int} {up : Bool}
    (added : stabAddVar st name type off up = .ok (id, off', st')) : ∃ v, stabVar st' id = some v := by
  unfold stabAddVar at added
  split at added
  next => cases added
  next =>
    cases added
    refine ⟨⟨type, name, -1, off, false⟩, arenaGet_eq_some.mpr ⟨Int.natCast_nonneg _, ?_⟩⟩
    simp [insertVar]

theorem reports_saveDisplay {entries : List (BucketEntry Name)} {acx : Acx}
    (vars : ∀ ent ∈ entries, ∃ v, stabVar acx.st ent.val = some v) :
    Reports (saveDisplay entries) acx := by
  induction entries with
  | nil => exact reports_pure _
  | cons ent entries ih =>
    rw [List.forall_mem_cons] at vars
    obtain ⟨v, found⟩ := vars.1
    rw [saveDisplay, reports_get_bind, reports_ofOption_bind]
    refine ⟨v, found, ?_⟩
    split
    next =>
      rw [reports_emit_bind, reports_bind]
      exact ⟨ih vars.2, fun _ _ _ _ => reports_pure _⟩
    next => exact ih vars.2

theorem reports_storeGlobals {entries : List (BucketEntry Name)} {acx : Acx}
    (vars : ∀ ent ∈ entries, ∃ v, stabVar acx.st ent.val = some v) :
    Reports (storeGlobals entries) acx := by
  induction entries generalizing acx with
  | nil => exact reports_pure _
  | cons ent entries ih =>
    rw [List.forall_mem_cons] at vars
    obtain ⟨v, found⟩ := vars.1
    rw [storeGlobals, reports_get_bind, reports_ofOption_bind]
    refine ⟨v, found, ?_⟩
    split
    next =>
      rw [reports_regGimme_bind, reports_emit_bind, reports_regTakeitback_bind]
      exact ih vars.2
    next => exact ih vars.2

theorem reports_epilogue {retslot : Index} {off : Int} {captured : List StabVar} {acx : Acx}
    (slot : ∃ v, stabVar acx.st retslot = some v) : Reports (epilogue retslot off captured) acx := by
  obtain ⟨v, found⟩ := slot
  rw [epilogue, reports_regGimme_bind, reports_emit_bind, reports_regTakeitback_bind, reports_bind]
  refine ⟨?_, fun _ _ _ _ => reports_emit _⟩
  rw [copyResult, reports_get_bind]
  split
  next =>
    rw [reports_regGimme_bind, reports_ofOption_bind]
    exact ⟨v, found, by simp⟩
  next => exact reports_pure ()

theorem judged_own {retslot : Index} {off : Int} {body : AstStmt} {acx : Acx}
    (written : body.written = true) (readable : acx.st.Readable)
    (slot : ∃ v, stabVar acx.st retslot = some v) :
    Judged (ownCode retslot off body) (ownTrace retslot off body) acx := by
  have first : Judged (prologue off) (traced (.prologue off) (prologue off) quiet) acx := by
    apply Judged.traced
    · trivial
    · apply Judged.silent
      rw [prologue, reports_emit_bind, reports_get_bind]
      exact reports_saveDisplay (readable.entries acx.st.innermost List.mem_cons_self)
  apply first.andThen
  intro captured acx₁ code₁ opened
  obtain ⟨rfl, -⟩ := prologue_run opened
  have ran := follows_stmt body readable.sound
  apply Judged.bind readable ran (judged_stmt body written readable)
  intro u acx₂ code₂ run readable₂
  have checks := follows_checkReturn acx₂
  have reports : Reports checkReturn acx₂ := by
    rw [checkReturn, reports_get_bind]
    dsimp only
    split
    next => exact reports_spanErr _
    next => exact reports_pure ()
  apply Judged.bind readable₂ checks (.silent reports)
  intro u acx₃ code₃ checked _
  have steps : StabSteps acx₁.table acx₃.table :=
    (ran.ended u acx₂ code₂ run).steps.trans (checks.ended u acx₃ code₃ checked).steps
  apply Judged.traced
  · trivial
  · exact .silent (reports_epilogue (steps.exists_var slot))

mutual

theorem judged_sub : ∀ (d : AstSubdecl) {acx : Acx}, d.written = true → acx.st.Readable →
    Judged (analyzeSubprog d) (subTrace d) acx
  | .mk head name decls subprogs types body, acx, written, readable => by
      simp only [AstSubdecl.written, Bool.and_eq_true, List.all_eq_true] at written
      obtain ⟨headWritten, typesWritten, declsWritten, subsWritten, bodyWritten⟩ := written
      apply Judged.traced
      · trivial
      apply Judged.skip (x := get) rfl
      apply Judged.bind readable (follows_open head name types decls readable.sound)
        (judged_open name headWritten typesWritten declsWritten readable)
      intro slot acx₁ code₁ opened readable₁
      obtain ⟨st, opens, rfl, -⟩ := openSubprog_eq_ok.mp opened
      have nests := follows_subs subprogs readable₁.sound
      apply Judged.bind readable₁ nests (judged_subs subprogs subsWritten readable₁)
      intro u acx₂ code₂ nested readable₂
      have slotFound : ∃ v, stabVar acx₂.st slot.1 = some v := by
        obtain ⟨_, _, _, _, _, _, _, -, -, -, -, added⟩ := opens
        exact (nests.ended u acx₂ code₂ nested).steps.exists_var (exists_slot added)
      apply Judged.bind readable₂ (follows_own slot.1 slot.2 body readable₂.sound)
        (judged_own bodyWritten readable₂ slotFound)
      intro u acx₃ code₃ own _
      obtain ⟨captured, bodyCode, slot', own⟩ := ownCode_run own
      have open_ : acx₃.st.enclosing ≠ [] := by
        have subs : Extends _ acx₂.st := (analyzeSubprogs_run subprogs nested).scopes
        rw [own.run.scopes.enclosing, subs.enclosing]
        change st.enclosing ≠ []
        rw [opens.extends_.enclosing]
        exact List.cons_ne_nil _ _
      exact Judged.last (judged_leave open_) fun _ _ _ _ => reports_modify _

theorem judged_subs : ∀ (subprogs : List AstSubdecl) {acx : Acx}, subprogsWritten subprogs = true →
    acx.st.Readable → Judged (analyzeSubprogs subprogs) (subsTrace subprogs) acx
  | [], acx, _, _ => .silent (reports_pure ())
  | d :: subprogs, acx, written, readable => by
      simp only [subprogsWritten, Bool.and_eq_true] at written
      have added : Judged (addFunc d) (here (.declare (.func d.name d.head))) acx := by
        apply Judged.here
        apply iff_of_true _ trivial
        rw [addFunc, reports_withStab, reported_bind]
        exact ⟨reported_stabAddFunc readable.sound written.1, fun _ _ => reported_ok _⟩
      apply Judged.bind readable (follows_addFunc d readable.sound) added
      intro u acx₁ code₁ _ readable₁
      apply Judged.bind readable₁ (follows_sub d readable₁.sound) (judged_sub d written.2.1 readable₁)
      intro u acx₂ code₂ _ readable₂
      exact judged_subs subprogs written.2.2 readable₂

end

/-! ## Programs -/

theorem reported_doImports {args : List Name} {st : Stab} : Reported (doImports st args) := by
  induction args generalizing st with
  | nil => exact reported_ok _
  | cons imported args ih =>
    rw [doImports]
    split
    next => exact ih
    next =>
      split
      next => exact ih
      next => exact reported_error.mpr trivial

theorem judged_openProgram {prog : AstProgram} {acx : Acx}
    (typesWritten : ∀ t ∈ prog.types, t.written = true)
    (declsWritten : ∀ d ∈ prog.decls, d.written = true) (readable : acx.st.Readable) :
    Judged (openProgram prog) (openProgramTrace prog) acx := by
  apply Judged.skip (x := emit _) rfl
  have imports : Reports (withStab fun st => do return ((), ← doImports st prog.args)) acx := by
    rw [reports_withStab, reported_bind]
    exact ⟨reported_doImports, fun _ _ => reported_ok _⟩
  apply Judged.bind readable (follows_imports prog.args acx) (.silent imports)
  intro u acx₁ code₁ _ readable₁
  apply Judged.bind readable₁ (follows_types prog.types readable₁.sound)
    (judged_types typesWritten readable₁)
  intro u acx₂ code₂ _ readable₂
  exact judged_decls true 0 declsWritten readable₂

theorem judged_main {off : Int} {body : AstStmt} {acx : Acx} (written : body.written = true)
    (readable : acx.st.Readable) : Judged (mainCode off body) (mainTrace body) acx := by
  apply Judged.skip (x := emit _) rfl
  apply Judged.skip (x := emit _) rfl
  apply Judged.skip (x := get) rfl
  apply Judged.congr (t := (storeGlobals acx.st.innermost.vars.entries).follow
    (traced .globals (storeGlobals acx.st.innermost.vars.entries) quiet) fun _ =>
      (modify fun acx => { acx with toplevel := true }).follow quiet fun _ => stmtTrace body)
  · rfl
  have globals : Judged (storeGlobals acx.st.innermost.vars.entries)
      (traced .globals (storeGlobals acx.st.innermost.vars.entries) quiet) acx := by
    apply Judged.traced
    · trivial
    · exact .silent (reports_storeGlobals (readable.entries acx.st.innermost List.mem_cons_self))
  apply globals.andThen
  intro u acx₁ code₁ stored
  obtain ⟨rfl, -⟩ := storeGlobals_run stored
  apply Judged.bind readable (Follows.modify_ acx₁ rfl) (.silent (reports_modify _))
  intro u acx₂ code₂ _ readable₂
  exact Judged.last (judged_stmt body written readable₂) fun _ _ _ _ => reports_emit _

-- A program of the grammar is analyzed to its end, or up to a span_err, exactly when every call
-- of the run is.
theorem analyze_ends_iff {prog : AstProgram} (written : prog.written = true) :
    Reported (analyze prog) ↔ ∀ m ∈ prog.trace, m.Ends := by
  simp only [AstProgram.written, Bool.and_eq_true, List.all_eq_true] at written
  obtain ⟨typesWritten, declsWritten, subsWritten, bodyWritten⟩ := written
  have start : initialAcx.st.Readable := readable_stabNew
  have whole : Judged (analyzeProgram prog) (programTrace prog) initialAcx := by
    apply Judged.traced
    · trivial
    apply Judged.bind start (follows_openProgram prog start.sound)
      (judged_openProgram typesWritten declsWritten start)
    intro off acx₁ code₁ _ readable₁
    apply Judged.bind readable₁ (follows_subs prog.subprogs readable₁.sound)
      (judged_subs prog.subprogs subsWritten readable₁)
    intro u acx₂ code₂ _ readable₂
    exact judged_main bodyWritten readable₂
  have same : Reported (analyze prog) ↔ Reports (analyzeProgram prog) initialAcx := by
    unfold analyze Reports
    cases analyzeProgram prog initialAcx with
    | error s => exact reported_error.trans reported_error.symm
    | ok r => exact iff_of_true (reported_ok _) (reported_ok _)
  exact same.trans whole.verdict

/-! ## Members of unions -/

/-- The tag of a node whose union holds the member path. -/
def AstExpr.isPath : AstExpr → Bool
  | .path _ => true
  | _ => false

/-- The nodes whose member path check_assignability reads in a run that goes on: for an element the
node itself, then the node made for its array, then the node again. -/
def pathReads : AstExpr → List AstExpr
  | .path p => [.path p]
  | .idx p e => [.idx p e, .path p, .idx p e]
  | _ => []

/-- A union is read through a member that the tag does not say. The path of an element lies where
path does, so the run goes on. -/
def Moment.misreads (m : Moment) : Bool :=
  match m.call with
  | .target e => !m.acx.toplevel && (pathReads e).any fun node => !node.isPath
  | _ => false

/-- What a call must meet to be without an internal failure. -/
def Moment.Safe (m : Moment) : Prop :=
  match m.call with
  | .target (.idx ..) => m.acx.toplevel = true
  | _ => m.Ends

theorem Moment.safe_iff (m : Moment) : m.Safe ↔ m.Ends ∧ m.misreads = false := by
  obtain ⟨call, acx⟩ := m
  cases call with
  | target e => cases e <;> simp [Safe, Ends, misreads, pathReads, AstExpr.isPath]
  | _ => exact (and_iff_left rfl).symm

/-- The analysis ends normally or in span_err, and reads no union through another member. -/
structure AstProgram.NeverFails (prog : AstProgram) : Prop where
  ends : Reported (analyze prog)
  members : ∀ m ∈ prog.trace, m.misreads = false

/-- The analysis of a program of the grammar has no internal failure exactly when every call of the
run meets its condition. -/
theorem analyze_neverFails_iff (prog : AstProgram) (written : prog.written = true) :
    prog.NeverFails ↔ ∀ m ∈ prog.trace, m.Safe := by
  simp only [Moment.safe_iff, forall₂_and, ← analyze_ends_iff written]
  exact ⟨fun never => ⟨never.ends, never.members⟩, fun both => ⟨both.1, both.2⟩⟩

-- type t = ^integer; var p: t; begin p^ := 1 end.
def pointerAssignment : AstProgram :=
  ⟨[], [⟨["p"], .ref "t"⟩], [], [⟨"t", .pointer .integer⟩],
    .stmts [.assign (.deref (.path (astPath "p"))) (.lit "1")]⟩

theorem pointerAssignment_safe :
    pointerAssignment.NeverFails ∧ ∀ m ∈ pointerAssignment.trace, m.Safe := by
  have accepts : (analyze pointerAssignment).toOption.isSome = true := by
    decide +kernel
  have members : ∀ m ∈ pointerAssignment.trace, m.misreads = false := by
    decide +kernel
  obtain ⟨r, result⟩ := exists_ok_of_isSome accepts
  have never : pointerAssignment.NeverFails := by
    refine ⟨?_, members⟩
    rw [result]
    exact reported_ok r
  exact ⟨never, (analyze_neverFails_iff pointerAssignment (by decide)).mp never⟩

-- begin a.b end.
def dottedCall : AstProgram := ⟨[], [], [], [], .stmts [.proc ⟨"a", ["b"]⟩ []]⟩

-- The parser builds the call of a dotted name, and the assertion on its length fails.
theorem not_forall_neverFails : ¬ ∀ prog : AstProgram, prog.written = true → prog.NeverFails := by
  intro all
  have fails : (analyze dottedCall).map (fun _ => ()) = .error .assertFailed := by
    decide +kernel
  have reported := (all dottedCall (by decide)).ends
  cases result : analyze dottedCall with
  | ok r =>
    rw [result] at fails
    cases fails
  | error s =>
    rw [result] at fails reported
    cases fails
    exact reported_error.mp reported

end Dragon
