import Dragon.Codegen.Procedures
import Dragon.Lexer.Rules

/-! The types of number literals (rules 2.1, 2.3 and 4.1).

The lexer gives integers and numbers with a fraction or an exponent one token,
and EXPR_LIT gives each the type integer. So the types of a program are those of
the spellings exactly when no literal has a fraction or an exponent.
-/

set_option autoImplicit false

namespace Dragon

open Analysis Stab Lexical Pattern

/-! ## Spellings -/

def isFractionMark (c : Char) : Bool := c == '.' || c == 'e' || c == 'E'

def fractional (s : Name) : Bool := s.toList.any isFractionMark

/-- The type that the spelling of a number tells. -/
def typeOfSpelling (s : Name) : Index := if fractional s then realTypeIdx else integerTypeIdx

theorem isDigit_of_mem_digits {w : List Char} (inside : w ∈ digits.language) :
    ∀ c ∈ w, c.isDigit = true := by
  intro c member
  have mentioned := mentions_of_mem inside member
  simpa [digits, many, mentions] using mentioned

theorem not_fractionMark_of_isDigit {c : Char} (digit : c.isDigit = true) :
    isFractionMark c = false := by
  rw [isFractionMark, Bool.or_eq_false_iff, Bool.or_eq_false_iff]
  refine ⟨⟨?_, ?_⟩, ?_⟩
  all_goals
    rw [beq_eq_false_iff_ne]
    rintro rfl
    revert digit
    decide

theorem not_fractional_iff_digits {s : Name} (num : s.toList ∈ number.language) :
    fractional s = false ↔ s.toList ∈ digits.language := by
  constructor
  · intro plain
    rw [fractional, List.any_eq_false] at plain
    rw [number, mem_seq] at num
    obtain ⟨u, whole, v, rest, split⟩ := num
    obtain ⟨f, fraction, x, exponent, rfl⟩ := mem_seq.mp rest
    have marks : ∀ c ∈ f ++ x, isFractionMark c ≠ true := fun c member =>
      plain c (split ▸ List.mem_append_right u member)
    have noFraction : f = [] := by
      rcases fraction with point | nothing
      · obtain ⟨d, dot, e, -, rfl⟩ := mem_seq.mp point
        rw [mem_word] at dot
        subst dot
        exact absurd rfl (marks '.' (by simp))
      · exact nothing
    have noExponent : x = [] := by
      rcases exponent with power | nothing
      · obtain ⟨d, letter, e, -, rfl⟩ := mem_seq.mp power
        obtain ⟨c, either, rfl⟩ := mem_set.mp letter
        have mark : isFractionMark c = true := by
          rw [isFractionMark, Bool.or_assoc, either, Bool.or_true]
        exact absurd mark (marks c (by simp))
      · exact nothing
    rw [noFraction, noExponent, List.append_nil, List.append_nil] at split
    exact split ▸ whole
  · intro digits
    rw [fractional, List.any_eq_false]
    intro c member
    rw [not_fractionMark_of_isDigit (isDigit_of_mem_digits digits c member)]
    exact Bool.false_ne_true

/-! ## The literals of a program -/

mutual

def AstExpr.literals : AstExpr → List Name
  | .app _ args => argsLiterals args
  | .bin _ left right => left.literals ++ right.literals
  | .deref target => target.literals
  | .idx _ index => index.literals
  | .lit spelling => [spelling]
  | .path _ => []
  | .un _ operand => operand.literals
  | .addrof target => target.literals

def argsLiterals : List AstExpr → List Name
  | [] => []
  | e :: args => e.literals ++ argsLiterals args

end

mutual

def AstStmt.literals : AstStmt → List Name
  | .null => []
  | .assign lvalue rvalue => lvalue.literals ++ rvalue.literals
  | .foor _ start finish body => start.literals ++ (finish.literals ++ body.literals)
  | .ite cond thenn elze => cond.literals ++ (thenn.literals ++ elze.literals)
  | .proc _ args => argsLiterals args
  | .stmts body => stmtsLiterals body
  | .wdo cond body => cond.literals ++ body.literals

def stmtsLiterals : List AstStmt → List Name
  | [] => []
  | s :: body => s.literals ++ stmtsLiterals body

end

mutual

def AstSubdecl.literals : AstSubdecl → List Name
  | .mk _ _ _ subprogs _ body => subprogsLiterals subprogs ++ body.literals

def subprogsLiterals : List AstSubdecl → List Name
  | [] => []
  | d :: subprogs => d.literals ++ subprogsLiterals subprogs

end

def AstProgram.literals (prog : AstProgram) : List Name :=
  subprogsLiterals prog.subprogs ++ prog.body.literals

def Call.literals : Call → List Name
  | .program prog => prog.literals
  | .sub d => d.literals
  | .stmt s => s.literals
  | .expr e _ => e.literals
  | .call _ args => argsLiterals args
  | .target e => e.literals
  | .declare _ | .prologue _ | .epilogue .. | .globals | .path .. | .address .. | .typesEq ..
  | .finished => []

/-! ## The moments of a program are about its parts -/

/-- The literals at the moments are among some. -/
def LiteralsIn (l : List Name) (ms : List Moment) : Prop := ∀ m ∈ ms, m.call.literals ⊆ l

section

variable {α : Type} {l : List Name} {x : Analysis α} {acx : Acx}

theorem literalsIn_nil : LiteralsIn l [] := fun _ member => absurd member List.not_mem_nil

theorem literalsIn_here {c : Call} (own : c.literals ⊆ l) : LiteralsIn l (here c acx) := by
  intro m member
  rw [List.mem_singleton.mp member]
  exact own

theorem literalsIn_follow {inner : Tracer} {rest : α → Tracer} (first : LiteralsIn l (inner acx))
    (second : ∀ a acx', LiteralsIn l (rest a acx')) : LiteralsIn l (x.follow inner rest acx) := by
  intro m member
  unfold Analysis.follow at member
  rcases List.mem_append.mp member with before | after
  · exact first m before
  · split at after
    · cases after
    · exact second _ _ m after

theorem literalsIn_traced {c : Call} {inner : Tracer} (own : c.literals ⊆ l)
    (first : LiteralsIn l (inner acx)) : LiteralsIn l (traced c x inner acx) := by
  intro m member
  rcases List.mem_cons.mp member with rfl | member
  · exact own
  · exact literalsIn_follow first (fun _ _ => literalsIn_here (List.nil_subset _)) m member

theorem literalsIn_path (p : AstPath) (rv : Bool) : LiteralsIn l (pathTrace p rv acx) := by
  apply literalsIn_traced (List.nil_subset _)
  dsimp only
  split
  · exact literalsIn_nil
  · apply literalsIn_follow literalsIn_nil
    exact fun reg acx' => literalsIn_traced (List.nil_subset _) literalsIn_nil

def ActualsIn (l : List Name) (args : List TracedActual) : Prop :=
  ∀ e ∈ args, ∀ rv acx, LiteralsIn l (e.trace rv acx)

theorem literalsIn_writes {args : List TracedActual} (each : ActualsIn l args) :
    LiteralsIn l (writesTrace args acx) := by
  induction args generalizing acx with
  | nil => exact literalsIn_nil
  | cons e args ih =>
    obtain ⟨first, rest⟩ := List.forall_mem_cons.mp each
    apply literalsIn_follow (first true acx)
    intro r acx₁
    exact literalsIn_follow literalsIn_nil fun _ acx₂ => ih rest

theorem literalsIn_reads {newline : List Insn} {args : List TracedActual} (each : ActualsIn l args) :
    LiteralsIn l (readsTrace newline args acx) := by
  induction args generalizing acx with
  | nil => exact literalsIn_nil
  | cons e args ih =>
    obtain ⟨first, rest⟩ := List.forall_mem_cons.mp each
    rw [readsTrace]
    split
    · apply literalsIn_follow (first false acx)
      intro r acx₁
      exact literalsIn_follow literalsIn_nil fun _ acx₂ => ih rest
    · exact literalsIn_nil

theorem literalsIn_actuals {args : List TracedActual} {formals : List Index}
    (each : ActualsIn l args) : LiteralsIn l (actualsTrace args formals acx) := by
  induction args generalizing formals acx with
  | nil =>
    rw [actualsTrace]
    · exact literalsIn_nil
    · exact fun _ _ _ _ none => by cases none
  | cons e args ih =>
    obtain ⟨first, rest⟩ := List.forall_mem_cons.mp each
    cases formals with
    | nil =>
      rw [actualsTrace]
      · exact literalsIn_nil
      · exact fun _ _ _ _ _ none => by cases none
    | cons ft formals =>
      apply literalsIn_follow (first true acx)
      intro et acx₁
      split
      · exact literalsIn_nil
      · apply literalsIn_follow (literalsIn_here (List.nil_subset _))
        intro same acx₂
        exact literalsIn_follow literalsIn_nil fun _ acx₃ => ih rest

theorem literalsIn_callee {p : AstPath} {args : List TracedActual} (each : ActualsIn l args) :
    LiteralsIn l (calleeTrace p args acx) := by
  unfold calleeTrace
  split
  · exact literalsIn_nil
  · split
    · unfold magicTrace
      split
      · exact literalsIn_writes each
      · exact literalsIn_writes each
      · exact literalsIn_reads each
      · exact literalsIn_reads each
    · split
      · exact literalsIn_nil
      · exact literalsIn_follow literalsIn_nil fun _ acx₁ => literalsIn_actuals each
    · exact literalsIn_nil

mutual

theorem literalsIn_expr : ∀ (e : AstExpr) (rv : Bool) (acx : Acx), e.literals ⊆ l →
    LiteralsIn l (exprTrace e rv acx)
  | .app p args, rv, acx, inside => by
      rw [exprTrace]
      apply literalsIn_traced inside
      exact literalsIn_traced inside (literalsIn_callee (literalsIn_args args inside))
  | .bin op left right, rv, acx, inside => by
      rw [exprTrace]
      apply literalsIn_traced inside
      rw [AstExpr.literals, List.append_subset] at inside
      apply literalsIn_follow (literalsIn_expr left true acx inside.1)
      exact fun _ acx₁ => literalsIn_expr right true acx₁ inside.2
  | .deref (.path p), rv, acx, inside => by
      rw [exprTrace]
      exact literalsIn_traced inside (literalsIn_path p false)
  | .deref (.app ..), rv, acx, inside | .deref (.bin ..), rv, acx, inside
  | .deref (.deref _), rv, acx, inside | .deref (.idx ..), rv, acx, inside
  | .deref (.lit _), rv, acx, inside | .deref (.un ..), rv, acx, inside
  | .deref (.addrof _), rv, acx, inside => literalsIn_traced inside literalsIn_nil
  | .idx p e, rv, acx, inside => by
      rw [exprTrace]
      apply literalsIn_traced inside
      apply literalsIn_follow (literalsIn_path p false)
      intro pathty acx₁
      split
      · exact literalsIn_expr e true acx₁ inside
      · exact literalsIn_nil
  | .path p, rv, acx, inside => by
      rw [exprTrace]
      exact literalsIn_traced inside (literalsIn_path p rv)
  | .un op e, rv, acx, inside => by
      rw [exprTrace]
      exact literalsIn_traced inside (literalsIn_expr e true acx inside)
  | .lit s, rv, acx, inside => literalsIn_traced inside literalsIn_nil
  | .addrof e, rv, acx, inside => literalsIn_traced inside literalsIn_nil

theorem literalsIn_args : ∀ args : List AstExpr, argsLiterals args ⊆ l →
    ActualsIn l (argsTrace args)
  | [], _ => fun e member => absurd member List.not_mem_nil
  | e :: args, inside => by
      rw [argsLiterals, List.append_subset] at inside
      exact List.forall_mem_cons.mpr
        ⟨fun rv acx => literalsIn_expr e rv acx inside.1, literalsIn_args args inside.2⟩

end

theorem literalsIn_assign {lvalue rvalue : AstExpr} (left : lvalue.literals ⊆ l)
    (right : rvalue.literals ⊆ l) : LiteralsIn l (assignTrace lvalue rvalue acx) := by
  apply literalsIn_follow (literalsIn_expr lvalue false acx left)
  intro lty acx₁
  apply literalsIn_follow (literalsIn_traced left literalsIn_nil)
  intro _ acx₂
  apply literalsIn_follow (literalsIn_expr rvalue true acx₂ right)
  exact fun rty acx₃ => literalsIn_here (List.nil_subset _)

mutual

theorem literalsIn_stmt : ∀ (s : AstStmt) (acx : Acx), s.literals ⊆ l →
    LiteralsIn l (stmtTrace s acx)
  | .null, acx, inside => literalsIn_traced inside literalsIn_nil
  | .assign lvalue rvalue, acx, inside => by
      rw [stmtTrace]
      apply literalsIn_traced inside
      rw [AstStmt.literals, List.append_subset] at inside
      exact literalsIn_assign inside.1 inside.2
  | .foor id start finish body, acx, inside => by
      rw [stmtTrace]
      apply literalsIn_traced inside
      rw [AstStmt.literals, List.append_subset, List.append_subset] at inside
      obtain ⟨first, last, within⟩ := inside
      apply literalsIn_follow (literalsIn_expr start true acx first)
      intro sty acx₁
      apply literalsIn_follow (literalsIn_expr finish true acx₁ last)
      intro ety acx₂
      split
      · exact literalsIn_nil
      apply literalsIn_follow (literalsIn_path (astPath id) false)
      intro ity acx₃
      split
      · exact literalsIn_nil
      apply literalsIn_follow (literalsIn_here (List.nil_subset _))
      intro _ acx₄
      apply literalsIn_follow literalsIn_nil
      intro _ acx₅
      apply literalsIn_follow literalsIn_nil
      intro _ acx₆
      apply literalsIn_follow (literalsIn_stmt body acx₆ within)
      intro _ acx₇
      apply literalsIn_follow literalsIn_nil
      intro _ acx₈
      apply literalsIn_follow literalsIn_nil
      exact fun _ acx₉ => literalsIn_here (List.nil_subset _)
  | .ite cond thenn elze, acx, inside => by
      rw [stmtTrace]
      apply literalsIn_traced inside
      rw [AstStmt.literals, List.append_subset, List.append_subset] at inside
      obtain ⟨test, first, second⟩ := inside
      apply literalsIn_follow (literalsIn_expr cond true acx test)
      intro cty acx₁
      apply literalsIn_follow literalsIn_nil
      intro _ acx₂
      apply literalsIn_follow literalsIn_nil
      intro _ acx₃
      apply literalsIn_follow literalsIn_nil
      intro _ acx₄
      apply literalsIn_follow (literalsIn_stmt thenn acx₄ first)
      exact fun _ acx₅ => literalsIn_stmt elze acx₅ second
  | .proc p args, acx, inside => by
      rw [stmtTrace]
      apply literalsIn_traced inside
      exact literalsIn_traced inside (literalsIn_callee (literalsIn_args args inside))
  | .stmts body, acx, inside => by
      rw [stmtTrace]
      exact literalsIn_traced inside (literalsIn_stmts body acx inside)
  | .wdo cond body, acx, inside => by
      rw [stmtTrace]
      apply literalsIn_traced inside
      rw [AstStmt.literals, List.append_subset] at inside
      apply literalsIn_follow literalsIn_nil
      intro _ acx₁
      apply literalsIn_follow literalsIn_nil
      intro _ acx₂
      apply literalsIn_follow (literalsIn_expr cond true acx₂ inside.1)
      intro cty acx₃
      apply literalsIn_follow literalsIn_nil
      exact fun _ acx₄ => literalsIn_stmt body acx₄ inside.2

theorem literalsIn_stmts : ∀ (body : List AstStmt) (acx : Acx), stmtsLiterals body ⊆ l →
    LiteralsIn l (stmtsTrace body acx)
  | [], acx, _ => literalsIn_nil
  | s :: body, acx, inside => by
      rw [stmtsTrace]
      rw [stmtsLiterals, List.append_subset] at inside
      apply literalsIn_follow (literalsIn_stmt s acx inside.1)
      exact fun _ acx₁ => literalsIn_stmts body acx₁ inside.2

end

theorem literalsIn_types (types : List AstTypeDecl) : LiteralsIn l (typesTrace types acx) := by
  induction types generalizing acx with
  | nil => exact literalsIn_nil
  | cons t types ih =>
    apply literalsIn_follow (literalsIn_here (List.nil_subset _))
    exact fun _ acx₁ => ih

theorem literalsIn_decls (arguments : Bool) (decls : List AstDecls) (off : Int) :
    LiteralsIn l (declsTrace arguments decls off acx) := by
  induction decls generalizing acx off with
  | nil => exact literalsIn_nil
  | cons d decls ih =>
    apply literalsIn_follow (literalsIn_here (List.nil_subset _))
    exact fun off' acx₁ => ih off'

theorem literalsIn_open (head : AstSig) (name : Name) (types : List AstTypeDecl)
    (decls : List AstDecls) : LiteralsIn l (openTrace head name types decls acx) := by
  apply literalsIn_follow literalsIn_nil
  intro _ acx₁
  apply literalsIn_follow (literalsIn_here (List.nil_subset _))
  intro _ acx₂
  apply literalsIn_follow (literalsIn_types types)
  intro _ acx₃
  apply literalsIn_follow (literalsIn_decls false head.args _)
  intro _ acx₄
  apply literalsIn_follow (literalsIn_decls true decls 0)
  exact fun _ acx₅ => literalsIn_here (List.nil_subset _)

theorem literalsIn_own {retslot : Index} {off : Int} {body : AstStmt} (inside : body.literals ⊆ l) :
    LiteralsIn l (ownTrace retslot off body acx) := by
  apply literalsIn_follow (literalsIn_traced (List.nil_subset _) literalsIn_nil)
  intro captured acx₁
  apply literalsIn_follow (literalsIn_stmt body acx₁ inside)
  intro _ acx₂
  apply literalsIn_follow literalsIn_nil
  exact fun _ acx₃ => literalsIn_traced (List.nil_subset _) literalsIn_nil

mutual

theorem literalsIn_sub : ∀ (d : AstSubdecl) (acx : Acx), d.literals ⊆ l →
    LiteralsIn l (subTrace d acx)
  | .mk head name decls subprogs types body, acx, inside => by
      rw [subTrace]
      apply literalsIn_traced inside
      rw [AstSubdecl.literals, List.append_subset] at inside
      apply literalsIn_follow (literalsIn_open head name types decls)
      intro slot acx₁
      apply literalsIn_follow (literalsIn_subs subprogs acx₁ inside.1)
      intro _ acx₂
      apply literalsIn_follow (literalsIn_own inside.2)
      exact fun _ acx₃ => literalsIn_here (List.nil_subset _)

theorem literalsIn_subs : ∀ (subprogs : List AstSubdecl) (acx : Acx), subprogsLiterals subprogs ⊆ l →
    LiteralsIn l (subsTrace subprogs acx)
  | [], acx, _ => literalsIn_nil
  | d :: subprogs, acx, inside => by
      rw [subsTrace]
      rw [subprogsLiterals, List.append_subset] at inside
      apply literalsIn_follow (literalsIn_here (List.nil_subset _))
      intro _ acx₁
      apply literalsIn_follow (literalsIn_sub d acx₁ inside.1)
      exact fun _ acx₂ => literalsIn_subs subprogs acx₂ inside.2

end

theorem literalsIn_program (prog : AstProgram) : LiteralsIn prog.literals prog.trace := by
  apply literalsIn_traced (List.Subset.refl _)
  apply literalsIn_follow
  · apply literalsIn_follow literalsIn_nil
    intro _ acx₁
    apply literalsIn_follow (literalsIn_types prog.types)
    exact fun _ acx₂ => literalsIn_decls true prog.decls 0
  intro off acx₁
  apply literalsIn_follow (literalsIn_subs prog.subprogs acx₁ (List.subset_append_left _ _))
  intro _ acx₂
  apply literalsIn_follow (literalsIn_traced (List.nil_subset _) literalsIn_nil)
  intro _ acx₃
  apply literalsIn_follow literalsIn_nil
  exact fun _ acx₄ => literalsIn_stmt prog.body acx₄ (List.subset_append_right _ _)

end

/-! ## Types of literals -/

/-- Whatever the context, a literal gets the type of its spelling. -/
def LiteralRight (s : Name) : Prop :=
  ∀ rv acx r acx' code, analyzeExpr (.lit s) rv acx = .ok (r, acx', code) →
    r.type = typeOfSpelling s

/-- The literals that the value of an expression is computed from. -/
def AstExpr.operands : AstExpr → List Name
  | .lit s => [s]
  | .bin op left right => if isRelop op then [] else left.operands ++ right.operands
  | .un _ e => e.operands
  | .app .. | .deref _ | .idx .. | .path _ | .addrof _ => []

/-- The value is computed from a literal with a fraction or an exponent. -/
def AstExpr.Fractional (e : AstExpr) : Prop := ∃ s ∈ e.operands, fractional s = true

/-- An expression of type integer without such literals. -/
def IntegerObject (st : Stab) (e : AstExpr) : Prop :=
  exprType st e = some integerTypeIdx ∧ ¬ e.Fractional

/-- An integer object and a literal with a fraction or an exponent meet in an assignment, an operand
pair, an index or a bound of a loop. -/
def Moment.Mixes (m : Moment) : Prop :=
  match m.call with
  | .stmt (.assign lvalue rvalue) => IntegerObject m.acx.st lvalue ∧ rvalue.Fractional
  | .stmt (.foor id start finish _) =>
      pathType m.acx.st (astPath id) = some integerTypeIdx ∧ (start.Fractional ∨ finish.Fractional)
  | .expr (.bin _ left right) _ =>
      IntegerObject m.acx.st left ∧ right.Fractional ∨ left.Fractional ∧ IntegerObject m.acx.st right
  | .expr (.idx _ e) _ => e.Fractional
  | _ => False

/-- The literals of a program have the types of their spellings, and if it is accepted they are not
mixed up. -/
def NumbersRight (prog : AstProgram) : Prop :=
  (∀ s ∈ prog.literals, LiteralRight s) ∧
    ∀ acx code, analyze prog = .ok (acx, code) → ∀ m ∈ prog.trace, ¬ m.Mixes

theorem literalRight_iff (s : Name) : LiteralRight s ↔ fractional s = false := by
  have accepted : ∀ rv acx, ∃ r acx' code, analyzeExpr (.lit s) rv acx = .ok (r, acx', code) ∧
      r.type = integerTypeIdx := fun rv acx => ⟨_, _, _, rfl, rfl⟩
  unfold LiteralRight typeOfSpelling
  constructor
  · intro right
    obtain ⟨r, acx', code, run, integer⟩ := accepted true initialAcx
    have type := right true initialAcx r acx' code run
    rw [integer] at type
    by_contra mark
    rw [if_pos (Bool.eq_true_of_not_eq_false mark)] at type
    cases type
  · intro plain rv acx r acx' code run
    obtain ⟨r', acx'', code', run', integer⟩ := accepted rv acx
    cases run.symm.trans run'
    rw [integer, plain]
    rfl

theorem AstExpr.operands_subset (e : AstExpr) : e.operands ⊆ e.literals := by
  induction e using AstExpr.operands.induct with
  | case1 s => exact List.Subset.refl _
  | case2 op left right relop =>
    rw [AstExpr.operands, if_pos relop]
    exact List.nil_subset _
  | case3 op left right relop ih₁ ih₂ =>
    rw [AstExpr.operands, if_neg relop, AstExpr.literals]
    exact List.append_subset.mpr
      ⟨List.subset_append_of_subset_left _ ih₁, List.subset_append_of_subset_right _ ih₂⟩
  | case4 op e ih =>
    rw [AstExpr.operands, AstExpr.literals]
    exact ih
  | _ => exact List.nil_subset _

theorem Moment.Mixes.exists_fractional {m : Moment} (mixes : m.Mixes) :
    ∃ s ∈ m.call.literals, fractional s = true := by
  have inside : ∀ {e : AstExpr} {l : List Name}, e.Fractional → e.literals ⊆ l →
      ∃ s ∈ l, fractional s = true := by
    rintro e l ⟨s, member, mark⟩ subset
    exact ⟨s, subset (e.operands_subset member), mark⟩
  unfold Moment.Mixes at mixes
  split at mixes
  next lvalue rvalue called =>
    rw [called]
    exact inside mixes.2 (List.subset_append_right _ _)
  next id start finish body called =>
    rw [called]
    rcases mixes.2 with first | last
    · exact inside first (List.subset_append_left _ _)
    · exact inside last (List.subset_append_of_subset_right _ (List.subset_append_left _ _))
  next op left right rv called =>
    rw [called]
    rcases mixes with ⟨-, second⟩ | ⟨first, -⟩
    · exact inside second (List.subset_append_right _ _)
    · exact inside first (List.subset_append_left _ _)
  next p e rv called =>
    rw [called]
    exact inside mixes (List.Subset.refl _)
  next => cases mixes

/-- A program has the types of its numbers right exactly when none has a fraction or an exponent. -/
theorem numbersRight_iff (prog : AstProgram) :
    NumbersRight prog ↔ ∀ s ∈ prog.literals, fractional s = false := by
  constructor
  · intro right s member
    exact (literalRight_iff s).mp (right.1 s member)
  · intro plain
    refine ⟨fun s member => (literalRight_iff s).mpr (plain s member), ?_⟩
    intro acx code _ m member mixes
    obtain ⟨s, inside, mark⟩ := mixes.exists_fractional
    have mine : s ∈ prog.literals := literalsIn_program prog m member inside
    rw [plain s mine] at mark
    cases mark

-- var x: integer; begin x := number end.
def assigned (number : Name) : AstProgram :=
  ⟨[], [⟨["x"], .integer⟩], [], [], .assign (.path (astPath "x")) (.lit number)⟩

-- 1.5 is an integer.
theorem not_forall_numbersRight : ¬ ∀ prog : AstProgram,
    (∀ s ∈ prog.literals, s.toList ∈ number.language) → NumbersRight prog := by
  intro always
  have spelled : ∀ s ∈ (assigned "1.5").literals, s.toList ∈ number.language := by
    intro s member
    rw [List.mem_singleton.mp member, ← accepts_iff]
    decide +kernel
  obtain ⟨right, -⟩ := always _ spelled
  have plain := (literalRight_iff "1.5").mp (right "1.5" (List.mem_singleton_self _))
  revert plain
  decide +kernel

end Dragon
