import Dragon.Codegen.Statements
import Dragon.Library.Listing

/-! Which statement, subprogram or program prints a line.

The listing of a statement has its own lines and, in between, the listings of
the statements in it; the same holds of subprograms and of the program.
-/

set_option autoImplicit false

namespace Dragon

open Analysis Listings

/-- What analyze_stmt prints for a statement, started in one context and ending in another. -/
inductive Prints : StmtNode → Acx → Acx → Listing Insn → Prop where
  | null {acx : Acx} : Prints (.stmt .null) acx acx (.last [])
  | assign {lvalue rvalue : AstExpr} {acx acx' : Acx} {code : List Insn}
      (run : analyzeStmt (.assign lvalue rvalue) acx = .ok ((), acx', code)) :
      Prints (.stmt (.assign lvalue rvalue)) acx acx' (.last code)
  | foor {id : Name} {start finish : AstExpr} {body : AstStmt}
      {acx acx₁ acx₂ acx₃ acx₄ acx₅ acx₆ : Acx} {sty ety ity : Resu} {st : Stab}
      {code₁ code₂ code₃ : List Insn} {inside : Listing Insn}
      (first : analyzeExpr start true acx = .ok (sty, acx₁, code₁))
      (last : analyzeExpr finish true acx₁ = .ok (ety, acx₂, code₂))
      (path : typeOfPath (astPath id) false acx₂ = .ok (ity, acx₃, code₃))
      (loop : Prints (.stmt body) (acx₃.setSt (stabEnter acx₃.st)).afterLabels acx₄ inside)
      (back : acx₅ = acx₄.setRs (acx₄.rs.takeitback ety.reg).1)
      (back' : acx₆ = acx₅.setRs (acx₅.rs.takeitback sty.reg).1)
      (leave : stabLeave acx₆.st = .ok st) :
      Prints (.stmt (.foor id start finish body)) acx (acx₆.setSt st)
        (.step (code₁ ++ (code₂ ++ (code₃ ++ [.push sty.reg.name, .label (.loc acx₃.label),
            .alu .cmp sty.reg.name ety.reg.name, .jcc .e (.loc (acx₃.label + 1))])))
          inside
          (.last ([.inc sty.reg.name, .store .rsp sty.reg.name, .jmp (.loc acx₃.label),
              .label (.loc (acx₃.label + 1))] ++
            ((acx₄.rs.takeitback ety.reg).2 ++ (acx₅.rs.takeitback sty.reg).2))))
  | ite {cond : AstExpr} {thenn elze : AstStmt} {acx acx₁ acx₂ acx₃ : Acx} {cty : Resu}
      {code : List Insn} {yes no : Listing Insn}
      (test : analyzeExpr cond true acx = .ok (cty, acx₁, code))
      (first : Prints (.stmt thenn) (acx₁.afterLabels.setRs (acx₁.rs.takeitback cty.reg).1) acx₂ yes)
      (second : Prints (.stmt elze) acx₂ acx₃ no) :
      Prints (.stmt (.ite cond thenn elze)) acx acx₃
        (.step (code ++ ([.cmpImm cty.reg.name 1, .jcc .ne (.loc acx₁.label)] ++
            (acx₁.rs.takeitback cty.reg).2))
          yes
          (.step [.jmp (.loc (acx₁.label + 1)), .label (.loc acx₁.label)] no
            (.last [.label (.loc (acx₁.label + 1))])))
  | proc {p : AstPath} {args : List AstExpr} {acx acx' : Acx} {code : List Insn}
      (run : analyzeStmt (.proc p args) acx = .ok ((), acx', code)) :
      Prints (.stmt (.proc p args)) acx acx' (.last code)
  | stmts {body : List AstStmt} {acx acx' : Acx} {all : Listing Insn}
      (run : Prints (.stmts body) acx acx' all) : Prints (.stmt (.stmts body)) acx acx' all
  | wdo {cond : AstExpr} {body : AstStmt} {acx acx₁ acx₂ : Acx} {cty : Resu} {code : List Insn}
      {inside : Listing Insn}
      (test : analyzeExpr cond true acx.afterLabels = .ok (cty, acx₁, code))
      (loop : Prints (.stmt body) (acx₁.setRs (acx₁.rs.takeitback cty.reg).1) acx₂ inside) :
      Prints (.stmt (.wdo cond body)) acx acx₂
        (.step ([.label (.loc acx.label)] ++ (code ++ ([.cmpImm cty.reg.name 1,
            .jcc .ne (.loc (acx.label + 1))] ++ (acx₁.rs.takeitback cty.reg).2)))
          inside
          (.last [.jmp (.loc acx.label), .label (.loc (acx.label + 1))]))
  | nil {acx : Acx} : Prints (.stmts []) acx acx (.last [])
  | cons {s : AstStmt} {body : List AstStmt} {acx acx₁ acx₂ : Acx} {one rest : Listing Insn}
      (first : Prints (.stmt s) acx acx₁ one) (later : Prints (.stmts body) acx₁ acx₂ rest) :
      Prints (.stmts (s :: body)) acx acx₂ (.step [] one rest)

inductive SubPrints : SubNode → Acx → Acx → Listing Insn → Prop where
  | sub {head : AstSig} {name : Name} {decls : List AstDecls} {subprogs : List AstSubdecl}
      {types : List AstTypeDecl} {body : AstStmt} {acx acx₁ acx₂ acx₃ acx₄ acx₅ acx₆ : Acx}
      {retslot : Index} {off : Int} {captured : List StabVar} {opening code₁ code₂ : List Insn}
      {nested inside : Listing Insn}
      (opened : openSubprog head name types decls acx = .ok ((retslot, off), acx₁, opening))
      (subs : SubPrints (.subs subprogs) acx₁ acx₂ nested)
      (saved : prologue off acx₂ = .ok (captured, acx₃, code₁))
      (run : Prints (.stmt body) acx₃ acx₄ inside)
      (assigned : checkReturn acx₄ = .ok ((), acx₄, []))
      (restored : epilogue retslot off captured acx₄ = .ok ((), acx₅, code₂))
      (closed : closeSubprog acx acx₅ = .ok ((), acx₆, [])) :
      SubPrints (.sub (.mk head name decls subprogs types body)) acx acx₆
        (.step opening nested (.step code₁ inside (.last code₂)))
  | nil {acx : Acx} : SubPrints (.subs []) acx acx (.last [])
  | cons {d : AstSubdecl} {subprogs : List AstSubdecl} {acx acx₁ acx₂ : Acx} {st : Stab}
      {one rest : Listing Insn} (added : stabAddFunc acx.st d.name d.head = .ok st)
      (first : SubPrints (.sub d) (acx.setSt st) acx₁ one)
      (later : SubPrints (.subs subprogs) acx₁ acx₂ rest) :
      SubPrints (.subs (d :: subprogs)) acx acx₂ (.step [] one rest)

inductive ProgramPrints (prog : AstProgram) : Listing Insn → Prop where
  | program {acx acx₁ acx₂ acx₃ : Acx} {off : Int} {opening stores : List Insn}
      {subs inside : Listing Insn}
      (opened : openProgram prog initialAcx = .ok (off, acx, opening))
      (nested : SubPrints (.subs prog.subprogs) acx acx₁ subs)
      (stored : storeGlobals acx₁.st.innermost.vars.entries acx₁ = .ok ((), acx₂, stores))
      (run : Prints (.stmt prog.body) { acx₂ with toplevel := true } acx₃ inside) :
      ProgramPrints prog (.step opening subs (.step (mainOpen off ++ stores) inside (.last exitCode)))

/-! ## The listing of an accepted program -/

theorem StmtRun.prints {node : StmtNode} {acx acx' : Acx} {code : List Insn}
    (run : StmtRun node acx acx' code) : ∃ all, Prints node acx acx' all ∧ all.text = code := by
  induction run with
  | null => exact ⟨_, .null, rfl⟩
  | assign left target right same first second =>
    exact ⟨_, .assign (StmtRun.assign left target right same first second).accepted, rfl⟩
  | foor first last _ _ path _ _ back back' leave ih =>
    obtain ⟨inside, prints, rfl⟩ := ih
    obtain ⟨_, same, first⟩ := first.accepted
    cases same
    obtain ⟨_, same, last⟩ := last.accepted
    cases same
    refine ⟨_, .foor first last path.accepted prints back back' leave, ?_⟩
    simp only [Listing.text, List.append_assoc, List.cons_append, List.nil_append, Acx.setRs]
  | ite test boolean _ _ ih₁ ih₂ =>
    obtain ⟨yes, first, rfl⟩ := ih₁
    obtain ⟨no, second, rfl⟩ := ih₂
    obtain ⟨_, same, test⟩ := test.accepted
    cases same
    refine ⟨_, .ite test first second, ?_⟩
    simp only [Listing.text, List.append_assoc, List.cons_append, List.nil_append]
  | proc call => exact ⟨_, .proc (StmtRun.proc call).accepted, rfl⟩
  | stmts _ ih =>
    obtain ⟨all, prints, rfl⟩ := ih
    exact ⟨all, .stmts prints, rfl⟩
  | wdo test boolean _ ih =>
    obtain ⟨inside, prints, rfl⟩ := ih
    obtain ⟨_, same, test⟩ := test.accepted
    cases same
    refine ⟨_, .wdo test prints, ?_⟩
    simp only [Listing.text, List.append_assoc, List.cons_append, List.nil_append]
  | nil => exact ⟨_, .nil, rfl⟩
  | cons _ _ ih₁ ih₂ =>
    obtain ⟨one, first, rfl⟩ := ih₁
    obtain ⟨rest, later, rfl⟩ := ih₂
    exact ⟨_, .cons first later, rfl⟩

mutual

theorem analyzeSubprog_prints : ∀ (d : AstSubdecl) {acx acx' : Acx} {u : Unit} {code : List Insn},
    analyzeSubprog d acx = .ok (u, acx', code) →
      ∃ all, SubPrints (.sub d) acx acx' all ∧ all.text = code
  | .mk head name decls subprogs types body, acx, acx', u, code, run => by
      simp only [analyzeSubprog, get_bind_eq_ok] at run
      rw [bind_eq_ok] at run
      obtain ⟨⟨retslot, off⟩, acx₁, opening, _, opened, run, rfl⟩ := run
      rw [bind_eq_ok] at run
      obtain ⟨_, acx₂, code₁, _, nested, run, rfl⟩ := run
      rw [bind_eq_ok] at run
      obtain ⟨_, acx₅, code₂, code₃, own, closed, rfl⟩ := run
      obtain ⟨subs, prints, rfl⟩ := analyzeSubprogs_prints subprogs nested
      simp only [ownCode] at own
      rw [bind_eq_ok] at own
      obtain ⟨captured, acx₃, saveCode, _, saved, own, rfl⟩ := own
      rw [bind_eq_ok] at own
      obtain ⟨_, acx₄, bodyCode, _, ran, own, rfl⟩ := own
      rw [bind_eq_ok] at own
      obtain ⟨_, acx₆, checkCode, epilogueCode, checked, restored, rfl⟩ := own
      obtain ⟨rfl, rfl⟩ : acx₆ = acx₄ ∧ checkCode = [] := by
        simp only [checkReturn, get_bind_eq_ok] at checked
        split at checked
        · simp at checked
        · simp only [pure_eq_ok] at checked
          exact ⟨checked.2.1.symm, checked.2.2⟩
      obtain ⟨inside, body, rfl⟩ := (analyzeStmt_run _ ran).prints
      have last : code₃ = [] := by
        obtain ⟨_, _, _, same⟩ := closeSubprog_eq_ok.mp closed
        exact same
      subst last
      refine ⟨_, .sub opened prints saved body checked restored closed, ?_⟩
      simp only [Listing.text, List.append_nil, List.nil_append]

theorem analyzeSubprogs_prints : ∀ (subprogs : List AstSubdecl) {acx acx' : Acx} {u : Unit}
    {code : List Insn}, analyzeSubprogs subprogs acx = .ok (u, acx', code) →
      ∃ all, SubPrints (.subs subprogs) acx acx' all ∧ all.text = code
  | [], _, _, _, _, run => by
      simp only [analyzeSubprogs, pure_eq_ok] at run
      obtain ⟨-, rfl, rfl⟩ := run
      exact ⟨_, .nil, rfl⟩
  | d :: subprogs, _, _, _, _, run => by
      obtain ⟨st, acx₁, code₁, code₂, added, first, rest, rfl⟩ := analyzeSubprogs_cons run
      obtain ⟨one, printed, rfl⟩ := analyzeSubprog_prints d first
      obtain ⟨others, later, rfl⟩ := analyzeSubprogs_prints subprogs rest
      exact ⟨_, .cons added printed later, rfl⟩

end

theorem analyze_prints {prog : AstProgram} {acx : Acx} {code : List Insn}
    (accepted : analyze prog = .ok (acx, code)) : ∃ file, ProgramPrints prog file ∧ file.text = code := by
  unfold analyze at accepted
  cases result : analyzeProgram prog initialAcx with
  | error s => simp [result] at accepted
  | ok r =>
    obtain ⟨u, acx₀, code₀⟩ := r
    simp only [result, Except.ok.injEq, Prod.mk.injEq] at accepted
    obtain ⟨rfl, rfl⟩ := accepted
    simp only [analyzeProgram] at result
    rw [bind_eq_ok] at result
    obtain ⟨off, acx₁, opening, _, opened, run, rfl⟩ := result
    rw [bind_eq_ok] at run
    obtain ⟨_, acx₂, subsCode, _, subs, run, rfl⟩ := run
    obtain ⟨nested, printed, rfl⟩ := analyzeSubprogs_prints _ subs
    simp only [mainCode, emit_bind_eq_ok, get_bind_eq_ok] at run
    obtain ⟨_, ⟨_, run, rfl⟩, rfl⟩ := run
    rw [bind_eq_ok] at run
    obtain ⟨_, acx₃, stores, _, stored, run, rfl⟩ := run
    simp only [modify_bind_eq_ok] at run
    rw [bind_eq_ok] at run
    obtain ⟨_, acx₄, bodyCode, _, body, last, rfl⟩ := run
    simp only [emit_eq_ok] at last
    obtain ⟨rfl, rfl⟩ := last
    obtain ⟨inside, prints, rfl⟩ := (analyzeStmt_run _ body).prints
    refine ⟨_, .program opened printed stored prints, ?_⟩
    simp only [Listing.text, mainOpen, List.cons_append, List.nil_append]

end Dragon
