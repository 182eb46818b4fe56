import Dragon.Lexer.Rendering
import Dragon.Parser.Program
import Dragon.Codegen.Failures

/-! Programs are written as tokens, and as text.

The trees that the actions of parser.y can build are those that can be written
and read back. Operations are written in parentheses and every conditional with
its ELSE, so that what is written has one reading whatever stands around it.
-/

set_option autoImplicit false

namespace Dragon

open Readers StmtTree

/-! ## Trees of the grammar -/

def AstPath.write (p : AstPath) : List Terminal :=
  .ID p.first :: p.rest.flatMap fun n => [.char '.', .ID n]

def Token.write : Token → Terminal
  | .and => .AND
  | .or => .OR
  | .eq => .char '='
  | .neq => .NEQ
  | .lt => .char '<'
  | .gt => .char '>'
  | .le => .LE
  | .ge => .GE
  | .div => .DIV
  | .slash => .char '/'
  | .mod => .MOD
  | .plus => .char '+'
  | .minus => .char '-'
  | .star => .char '*'
  | .not => .NOT

namespace AstExpr

mutual

/-- What the actions build. -/
def grammatical : AstExpr → Bool
  | .app _ args => allGrammatical args
  | .bin op left right => op != .not && left.grammatical && right.grammatical
  | .deref (.path _) => true
  | .deref _ => false
  | .idx _ index => index.grammatical
  | .lit _ => true
  | .path _ => true
  | .un op operand => (op == .not || op == .plus || op == .minus) && operand.grammatical
  | .addrof target => target.grammatical

def allGrammatical : List AstExpr → Bool
  | [] => true
  | e :: es => e.grammatical && allGrammatical es

end

mutual

def write : AstExpr → List Terminal
  | .app p args => p.write ++ .char '(' :: (writeArguments args ++ [.char ')'])
  | .bin op left right => .char '(' :: (left.write ++ op.write :: (right.write ++ [.char ')']))
  | .deref (.path p) => p.write ++ [.char '^']
  | .deref _ => []
  | .idx p index => p.write ++ .char '[' :: (index.write ++ [.char ']'])
  | .lit n => [.NUM n]
  | .path p => p.write
  | .un .not operand => .NOT :: operand.write
  | .un op operand => .char '(' :: op.write :: (operand.write ++ [.char ')'])
  | .addrof target => .char '@' :: target.write

def writeArguments : List AstExpr → List Terminal
  | [] => []
  | e :: es => e.write ++ writeOthers es

def writeOthers : List AstExpr → List Terminal
  | [] => []
  | e :: es => .char ',' :: (e.write ++ writeOthers es)

end

end AstExpr

namespace AstStmt

mutual

def grammatical : AstStmt → Bool
  | .null => true
  | .assign lvalue rvalue => isLvalue lvalue && lvalue.grammatical && rvalue.grammatical
  | .foor _ start finish body => start.grammatical && finish.grammatical && body.grammatical
  | .ite cond thenn elze => cond.grammatical && thenn.grammatical && elze.grammatical
  | .proc _ args => AstExpr.allGrammatical args
  | .stmts [] => false
  | .stmts (s :: body) => s.grammatical && allGrammatical body
  | .wdo cond body => cond.grammatical && body.grammatical

def allGrammatical : List AstStmt → Bool
  | [] => true
  | s :: body => s.grammatical && allGrammatical body

end

mutual

def write : AstStmt → List Terminal
  | .null => [.TBEGIN, .END]
  | .assign lvalue rvalue => lvalue.write ++ .ASSIGNOP :: rvalue.write
  | .foor id start finish body =>
      .FOR :: .ID id :: .ASSIGNOP :: (start.write ++ .TO :: (finish.write ++ .DO :: body.write))
  | .ite cond thenn elze => .IF :: (cond.write ++ .THEN :: (thenn.write ++ .ELSE :: elze.write))
  | .proc p args => p.write ++ .char '(' :: (AstExpr.writeArguments args ++ [.char ')'])
  | .stmts [] => []
  | .stmts (s :: body) => .TBEGIN :: (s.write ++ (writeAfter body ++ [.END]))
  | .wdo cond body => .WHILE :: (cond.write ++ .DO :: body.write)

def writeAfter : List AstStmt → List Terminal
  | [] => []
  | s :: body => .char ';' :: (s.write ++ writeAfter body)

end

/-- A statement between begin and end. -/
def isBlock : AstStmt → Bool
  | .null | .stmts _ => true
  | _ => false

end AstStmt

/-! ## What is written is derived -/

theorem AstPath.derives_write (p : AstPath) {E : Type} {A : Actions E} :
    Derives A .path p.write (.path p) := by
  obtain ⟨first, rest⟩ := p
  induction rest using List.reverseRecOn with
  | nil => exact .pathName
  | append_singleton rest n ih =>
    have more := Derives.pathField (n := n) ih
    simp only [write, List.flatMap_append, List.flatMap_cons, List.flatMap_nil] at more ⊢
    exact more

theorem token_cases {op : Token} (other : op ≠ .not) :
    relop op.write = some op ∨ addop op.write = some op ∨ mulop op.write = some op := by
  cases op <;> first | exact .inl rfl | exact .inr (.inl rfl) | exact .inr (.inr rfl) | exact (other rfl).elim

section

variable {E : Type} {A : Actions E}

theorem Derives.expression_of_factor {ts : List Terminal} {e : E}
    (factor : Derives A .factor ts (.expr e)) : Derives A .expression ts (.expr e) :=
  .expressionSimple (.simpleTerm (.termFactor factor))

theorem Derives.operation {ts us : List Terminal} {op : Token} {e f : E} (other : op ≠ .not)
    (left : Derives A .factor ts (.expr e)) (right : Derives A .factor us (.expr f)) :
    Derives A .expression (ts ++ op.write :: us) (.expr (A.bin op e f)) := by
  rcases token_cases other with relational | additive | multiplicative
  · exact .expressionRelop (.simpleTerm (.termFactor left)) relational
      (.simpleTerm (.termFactor right))
  · exact .expressionSimple (.simpleAddop (.simpleTerm (.termFactor left)) additive
      (.termFactor right))
  · exact .expressionSimple (.simpleTerm (.termMulop (.termFactor left) multiplicative right))

end

namespace AstExpr

theorem write_un {op : Token} {operand : AstExpr} (other : op ≠ .not) :
    write (.un op operand) = .char '(' :: op.write :: (operand.write ++ [.char ')']) := by
  cases op <;> first | rfl | exact (other rfl).elim

mutual

theorem derives_write : ∀ {e : AstExpr}, e.grammatical = true →
    Derives astActions .factor e.write (.expr e)
  | .app p args, grammatical => .factorCall p.derives_write (derives_writeArguments grammatical)
  | .bin op left right, grammatical => by
      simp only [AstExpr.grammatical, Bool.and_eq_true, bne_iff_ne] at grammatical
      obtain ⟨⟨other, first⟩, second⟩ := grammatical
      have inside := Derives.operation other (derives_write first) (derives_write second)
      have whole := Derives.factorParen inside
      rw [List.append_assoc] at whole
      exact whole
  | .deref (.path p), _ => .factorLvalue (.lvalueDeref p.derives_write)
  | .idx p index, grammatical =>
      .factorLvalue (.lvalueIndex p.derives_write
        (derives_write (e := index) grammatical).expression_of_factor)
  | .lit n, _ => .factorNum
  | .path p, _ => .factorLvalue (.lvaluePath p.derives_write)
  | .un op operand, grammatical => by
      simp only [AstExpr.grammatical, Bool.and_eq_true, Bool.or_eq_true, beq_iff_eq] at grammatical
      obtain ⟨(rfl | rfl) | rfl, inside⟩ := grammatical
      · exact .factorNot (derives_write inside)
      · exact .factorParen (.expressionSimple (.simpleSign rfl (.termFactor (derives_write inside))))
      · exact .factorParen (.expressionSimple (.simpleSign rfl (.termFactor (derives_write inside))))
  | .addrof target, grammatical => .factorAddrof (derives_write (e := target) grammatical)

theorem derives_writeArguments : ∀ {args : List AstExpr}, allGrammatical args = true →
    Derives astActions .expressionList (writeArguments args) (.list args)
  | [], _ => .listEmpty
  | e :: es, grammatical => by
      obtain ⟨first, others⟩ := Bool.and_eq_true_iff.mp grammatical
      exact derives_writeOthers others (.listOne (derives_write first).expression_of_factor)

theorem derives_writeOthers : ∀ {args : List AstExpr}, allGrammatical args = true →
    ∀ {ts : List Terminal} {es : List AstExpr}, Derives astActions .expressionList ts (.list es) →
      Derives astActions .expressionList (ts ++ writeOthers args) (.list (es ++ args))
  | [], _, ts, es, list => by
      rw [writeOthers, List.append_nil, List.append_nil]
      exact list
  | e :: args, grammatical, ts, es, list => by
      obtain ⟨first, others⟩ := Bool.and_eq_true_iff.mp grammatical
      have more := derives_writeOthers others
        (.listMore list (derives_write first).expression_of_factor)
      rw [List.append_assoc, List.append_assoc] at more
      exact more

end

theorem exists_phrase {e : AstExpr} (grammatical : e.grammatical = true) :
    ∃ c : Phrase, c.text = e.write ∧ c.tree.erase = e ∧
      Derives writtenActions .expression c.text (.expr c.tree) := by
  obtain ⟨w, derived, same⟩ := phrase_of_derives (derives_write grammatical).expression_of_factor
  exact ⟨⟨e.write, w⟩, rfl, same, derived⟩

theorem exists_lvalue {e : AstExpr} (lvalue : isLvalue e = true) (grammatical : e.grammatical = true) :
    ∃ c : Phrase, c.text = e.write ∧ c.tree.erase = e ∧
      Derives writtenActions .lvalue c.text (.expr c.tree) := by
  cases e with
  | path p => exact ⟨⟨p.write, .path p⟩, rfl, rfl, .lvaluePath p.derives_write⟩
  | idx p index =>
    obtain ⟨c, text, same, derived⟩ := exists_phrase (e := index) grammatical
    refine ⟨⟨_, .idx p c.tree⟩, ?_, ?_, .lvalueIndex p.derives_write derived⟩
    · rw [text]
      rfl
    · rw [Written.erase, same]
  | deref target =>
    cases target with
    | path p => exact ⟨⟨_, .deref p⟩, rfl, rfl, .lvalueDeref p.derives_write⟩
    | _ => cases grammatical
  | _ => cases lvalue

end AstExpr

namespace AstStmt

mutual

-- Every conditional has its ELSE, so the tree respects the precedence anywhere.
theorem derives_write : ∀ {s : AstStmt}, s.grammatical = true → ∃ t : StmtTree, t.Derived ∧
    (∀ elseNext, t.Respects elseNext) ∧ t.tokens = s.write ∧ t.ast = s
  | .null, _ => ⟨.empty, .empty, fun _ => trivial, rfl, rfl⟩
  | .assign lvalue rvalue, grammatical => by
      simp only [AstStmt.grammatical, Bool.and_eq_true] at grammatical
      obtain ⟨⟨lvalue_, first⟩, second⟩ := grammatical
      obtain ⟨c, text, same, target⟩ := AstExpr.exists_lvalue lvalue_ first
      obtain ⟨d, text', same', source⟩ := AstExpr.exists_phrase second
      refine ⟨.assign c d, .assign target source, fun _ => trivial, ?_, ?_⟩
      · rw [tokens, text, text']
        rfl
      · rw [ast, same, same']
  | .foor id start finish body, grammatical => by
      simp only [AstStmt.grammatical, Bool.and_eq_true] at grammatical
      obtain ⟨⟨first, second⟩, loop⟩ := grammatical
      obtain ⟨c, text, same, phrase⟩ := AstExpr.exists_phrase first
      obtain ⟨d, text', same', phrase'⟩ := AstExpr.exists_phrase second
      obtain ⟨t, derived, respects, written, built⟩ := derives_write loop
      refine ⟨.forTo id c d t, .forTo phrase phrase' derived, respects, ?_, ?_⟩
      · rw [tokens, text, text', written]
        rfl
      · rw [ast, same, same', built]
  | .ite cond thenn elze, grammatical => by
      simp only [AstStmt.grammatical, Bool.and_eq_true] at grammatical
      obtain ⟨⟨test, yes⟩, no⟩ := grammatical
      obtain ⟨c, text, same, phrase⟩ := AstExpr.exists_phrase test
      obtain ⟨t, derived, respects, written, built⟩ := derives_write yes
      obtain ⟨e, derived', respects', written', built'⟩ := derives_write no
      refine ⟨.ifElse c t e, .ifElse phrase derived derived', fun b => ⟨respects true, respects' b⟩,
        ?_, ?_⟩
      · rw [tokens, text, written, written']
        rfl
      · rw [ast, same, built, built']
  | .proc p args, grammatical => by
      obtain ⟨ws, derived, same⟩ := arguments_of_derives
        (AstExpr.derives_writeArguments grammatical)
      refine ⟨_, .procCall p.derives_write derived, fun _ => trivial, rfl, ?_⟩
      rw [ast, same]
  | .stmts (s :: body), grammatical => by
      obtain ⟨first, others⟩ := Bool.and_eq_true_iff.mp grammatical
      obtain ⟨t, derived, respects, written, built⟩ := derives_write first
      obtain ⟨ts, all, allRespect, written', built'⟩ := derives_writeAfter others
      refine ⟨.compound t ts, .compound derived all, fun _ => ⟨respects false, allRespect⟩, ?_, ?_⟩
      · rw [tokens, written, written']
        rfl
      · rw [ast, built, built']
  | .wdo cond body, grammatical => by
      obtain ⟨test, loop⟩ := Bool.and_eq_true_iff.mp grammatical
      obtain ⟨c, text, same, phrase⟩ := AstExpr.exists_phrase test
      obtain ⟨t, derived, respects, written, built⟩ := derives_write loop
      refine ⟨.whileDo c t, .whileDo phrase derived, respects, ?_, ?_⟩
      · rw [tokens, text, written]
        rfl
      · rw [ast, same, built]

theorem derives_writeAfter : ∀ {body : List AstStmt}, allGrammatical body = true →
    ∃ ts : List StmtTree, (∀ t ∈ ts, t.Derived) ∧ AllRespect ts ∧ tokensAfter ts = writeAfter body ∧
      astAll ts = body
  | [], _ => ⟨[], by simp, trivial, rfl, rfl⟩
  | s :: body, grammatical => by
      obtain ⟨first, others⟩ := Bool.and_eq_true_iff.mp grammatical
      obtain ⟨t, derived, respects, written, built⟩ := derives_write first
      obtain ⟨ts, all, allRespect, written', built'⟩ := derives_writeAfter others
      refine ⟨t :: ts, ?_, ⟨respects false, allRespect⟩, ?_, ?_⟩
      · intro u member
        rcases List.mem_cons.mp member with rfl | member
        · exact derived
        · exact all u member
      · rw [tokensAfter, written, written']
        rfl
      · rw [astAll, built, built']

end

end AstStmt

/-! ## Declarations -/

mutual

def AstType.write : AstType → List Terminal
  | .array lower upper elt =>
      .ARRAY :: .char '[' :: .NUM lower :: .DOTDOT :: .NUM upper :: .char ']' :: .OF :: elt.write
  | .boolean => [.BOOLEAN]
  | .char => [.CHAR]
  | .integer => [.INTEGER]
  | .pointer target => .char '^' :: target.write
  | .real => [.REAL]
  | .record fields => .RECORD :: (writeFields fields ++ [.END])
  | .ref n => [.ID n]
  | .string => [.STRING]
  | .void => []

def writeFields : List (Name × AstType) → List Terminal
  | [] => []
  | (n, type) :: fields => .ID n :: .char ':' :: (type.write ++ [.char ';']) ++ writeFields fields

end

theorem AstType.standard_write {t : AstType} (standard : t.standard = true) :
    ∃ u, t.write = [u] ∧ standardType u = some t := by
  cases t <;> first | exact ⟨_, rfl, rfl⟩ | cases standard

mutual

theorem AstType.derives_write : ∀ {t : AstType}, t.written = true → TypeText t.write t
  | .array lower upper elt, written => by
      obtain ⟨u, same, here⟩ := AstType.standard_write (t := elt) written
      rw [TypeText, AstType.write, same]
      exact .array here
  | .pointer target, written => .pointer (AstType.derives_write (t := target) written)
  | .record fields, written => .record (fields_iff.mpr (derives_writeFields written))
  | .ref _, _ => .ref
  | .boolean, _ => .standard rfl
  | .char, _ => .standard rfl
  | .integer, _ => .standard rfl
  | .real, _ => .standard rfl
  | .string, _ => .standard rfl

theorem derives_writeFields : ∀ {fields : List (Name × AstType)}, fieldsWritten fields = true →
    Many FieldText (writeFields fields) fields
  | [], _ => .none
  | (n, type) :: fields, written => by
      obtain ⟨first, others⟩ := Bool.and_eq_true_iff.mp written
      exact .cons ⟨_, rfl, AstType.derives_write first⟩ (derives_writeFields others)

end

def writeNames : List Name → List Terminal
  | [] => []
  | n :: names => .ID n :: names.flatMap fun m => [.char ',', .ID m]

theorem derives_writeNames {names : List Name} (some_ : names ≠ []) :
    IdentifierList (writeNames names) names := by
  cases names with
  | nil => exact absurd rfl some_
  | cons n names =>
    refine separated_iff.mpr ⟨[.ID n], _, n, names, rfl, rfl, rfl, ?_⟩
    induction names with
    | nil => exact .none
    | cons m names ih => exact .cons ⟨_, rfl, rfl⟩ (ih (List.cons_ne_nil n names))

def AstDecls.grammatical (d : AstDecls) : Bool := !d.names.isEmpty && d.type.written

def AstDecls.writeGroup (d : AstDecls) : List Terminal :=
  writeNames d.names ++ .char ':' :: d.type.write

theorem AstDecls.derives_writeGroup {d : AstDecls} (grammatical : d.grammatical = true) :
    ParameterText d.writeGroup d := by
  obtain ⟨some_, written⟩ := Bool.and_eq_true_iff.mp grammatical
  rw [Bool.not_eq_true', List.isEmpty_eq_false_iff] at some_
  exact ⟨_, _, rfl, derives_writeNames some_, AstType.derives_write written⟩

def AstDecls.write (d : AstDecls) : List Terminal := .VAR :: (d.writeGroup ++ [.char ';'])

theorem AstDecls.derives_write {d : AstDecls} (grammatical : d.grammatical = true) :
    DeclsText d.write d := by
  obtain ⟨us, vs, same, names, type⟩ := d.derives_writeGroup grammatical
  refine ⟨us, vs, ?_, names, type⟩
  rw [AstDecls.write, same]
  simp

def AstTypeDecl.write (d : AstTypeDecl) : List Terminal :=
  .TYPE :: .ID d.name :: .char '=' :: (d.type.write ++ [.char ';'])

theorem many_flatMap {α : Type} {L : Language Terminal α} {write : α → List Terminal} {xs : List α}
    (each : ∀ x ∈ xs, L (write x) x) : Many L (xs.flatMap write) xs := by
  induction xs with
  | nil => exact .none
  | cons x xs ih =>
    exact .cons (each x List.mem_cons_self) (ih fun y member => each y (List.mem_cons_of_mem x member))

def writeFormals : List AstDecls → List Terminal
  | [] => []
  | d :: ds => .char '(' :: (d.writeGroup ++ ds.flatMap (fun e => .char ';' :: e.writeGroup) ++
      [.char ')'])

theorem derives_writeFormals {ds : List AstDecls} (grammatical : ∀ d ∈ ds, d.grammatical = true) :
    ArgumentsText (writeFormals ds) ds := by
  cases ds with
  | nil => exact .empty
  | cons d ds =>
    refine .list (separated_iff.mpr ⟨d.writeGroup, _, d, ds, rfl, rfl,
      d.derives_writeGroup (grammatical d List.mem_cons_self), ?_⟩)
    exact many_flatMap fun e member =>
      ⟨_, rfl, e.derives_writeGroup (grammatical e (List.mem_cons_of_mem d member))⟩

/-! ## Subprograms and the program -/

def AstSig.grammatical (sig : AstSig) : Bool :=
  sig.args.all AstDecls.grammatical &&
    match sig.type, sig.retty with
    | .function, some t => t.standard
    | .procedure, none => true
    | _, _ => false

mutual

def AstSubdecl.grammatical : AstSubdecl → Bool
  | .mk head _ decls subprogs types body =>
      head.grammatical && decls.all AstDecls.grammatical && subprogsGrammatical subprogs &&
        types.all AstTypeDecl.written && body.isBlock && body.grammatical

def subprogsGrammatical : List AstSubdecl → Bool
  | [] => true
  | d :: subprogs => d.grammatical && subprogsGrammatical subprogs

end

/-- What the actions of parser.y build. -/
def NamedProgram.grammatical (p : NamedProgram) : Bool :=
  p.decls.all AstDecls.grammatical && subprogsGrammatical p.subprogs &&
    p.types.all AstTypeDecl.written && p.body.isBlock && p.body.grammatical

/-- The head of a subprogram, up to its semicolon. -/
def AstSig.write (sig : AstSig) (name : Name) : List Terminal :=
  match sig.retty with
  | some t => .FUNCTION :: .ID name :: (writeFormals sig.args ++ .char ':' :: t.write)
  | none => .PROCEDURE :: .ID name :: writeFormals sig.args

mutual

def AstSubdecl.write : AstSubdecl → List Terminal
  | .mk head name decls subprogs types body =>
      head.write name ++ .char ';' :: (writeSubprograms subprogs ++
        (types.flatMap AstTypeDecl.write ++ (decls.flatMap AstDecls.write ++ body.write)))

def writeSubprograms : List AstSubdecl → List Terminal
  | [] => []
  | d :: subprogs => d.write ++ [.char ';'] ++ writeSubprograms subprogs

end

def NamedProgram.write (p : NamedProgram) : List Terminal :=
  .PROGRAM :: .ID p.name :: .char '(' :: (writeNames p.args ++ .char ')' :: .char ';' ::
    (p.types.flatMap AstTypeDecl.write ++ (p.decls.flatMap AstDecls.write ++
      (writeSubprograms p.subprogs ++ (p.body.write ++ [.char '.'])))))

theorem AstStmt.derives_block {body : AstStmt} (block : body.isBlock = true)
    (grammatical : body.grammatical = true) : CompoundText body.write body := by
  obtain ⟨t, derived, respects, written, built⟩ := derives_write grammatical
  cases body with
  | null => exact ⟨[.END], rfl, t, derived, respects false, written, built⟩
  | stmts body =>
    cases body with
    | nil => cases grammatical
    | cons s body => exact ⟨_, rfl, t, derived, respects false, written, built⟩
  | _ => cases block

theorem derives_writeTypes {types : List AstTypeDecl} (written : types.all AstTypeDecl.written = true) :
    Many TypeDeclText (types.flatMap AstTypeDecl.write) types :=
  many_flatMap fun d member =>
    ⟨_, rfl, AstType.derives_write (List.all_eq_true.mp written d member)⟩

theorem derives_writeVariables {decls : List AstDecls}
    (grammatical : decls.all AstDecls.grammatical = true) :
    Many DeclsText (decls.flatMap AstDecls.write) decls :=
  many_flatMap fun d member => d.derives_write (List.all_eq_true.mp grammatical d member)

mutual

theorem AstSubdecl.derives_write : ∀ {d : AstSubdecl}, d.grammatical = true →
    SubprogramDerives .declaration d.write (.one d)
  | .mk head name decls subprogs types body, grammatical => by
      simp only [AstSubdecl.grammatical, Bool.and_eq_true] at grammatical
      obtain ⟨⟨⟨⟨⟨sig, vars⟩, inner⟩, typeDecls⟩, block⟩, inside⟩ := grammatical
      obtain ⟨args, result⟩ := Bool.and_eq_true_iff.mp sig
      have formals := derives_writeFormals (List.all_eq_true.mp args)
      have compound := AstStmt.derives_block block inside
      have subs := subprograms_iff.mpr (derives_writeSubprograms inner)
      obtain ⟨type, args, retty⟩ := head
      cases type with
      | function =>
        cases retty with
        | none => cases result
        | some t =>
          obtain ⟨u, same, here⟩ := AstType.standard_write (t := t) result
          have whole := SubprogramDerives.function (n := name) formals here subs
            (derives_writeTypes typeDecls) (derives_writeVariables vars) compound
          simp only [AstSubdecl.write, AstSig.write, same]
          simpa using whole
      | procedure =>
        cases retty with
        | some t => cases result
        | none =>
          exact .procedure (n := name) formals subs (derives_writeTypes typeDecls)
            (derives_writeVariables vars) compound

theorem derives_writeSubprograms : ∀ {ds : List AstSubdecl}, subprogsGrammatical ds = true →
    Many SubprogramText (writeSubprograms ds) ds
  | [], _ => .none
  | d :: ds, grammatical => by
      obtain ⟨first, others⟩ := Bool.and_eq_true_iff.mp grammatical
      exact .cons ⟨_, rfl, d.derives_write first⟩ (derives_writeSubprograms others)

end

theorem NamedProgram.derives_write {p : NamedProgram} (grammatical : p.grammatical = true) :
    ProgramDerives p.write p := by
  simp only [NamedProgram.grammatical, Bool.and_eq_true] at grammatical
  obtain ⟨⟨⟨⟨vars, inner⟩, typeDecls⟩, block⟩, inside⟩ := grammatical
  have imports : OptionalIdentifierList (writeNames p.args) p.args := by
    cases here : p.args with
    | nil => exact .inr ⟨rfl, rfl⟩
    | cons n names => exact .inl (derives_writeNames (List.cons_ne_nil n names))
  exact .program imports (derives_writeTypes typeDecls) (derives_writeVariables vars)
    (subprograms_iff.mpr (derives_writeSubprograms inner)) (AstStmt.derives_block block inside)

/-! ## What is derived can be written -/

theorem ne_not_of_operator {t : Terminal} {op : Token}
    (operator : relop t = some op ∨ addop t = some op ∨ mulop t = some op) : op ≠ .not := by
  rintro rfl
  rcases operator with here | here | here
  · unfold relop at here
    split at here <;> cases here
  · unfold addop at here
    split at here <;> cases here
  · unfold mulop at here
    split at here <;> cases here

theorem AstExpr.allGrammatical_append {es : List AstExpr} {e : AstExpr}
    (all : allGrammatical es = true) (last : e.grammatical = true) :
    allGrammatical (es ++ [e]) = true := by
  induction es with
  | nil => exact Bool.and_eq_true_iff.mpr ⟨last, rfl⟩
  | cons f es ih =>
    obtain ⟨first, others⟩ := Bool.and_eq_true_iff.mp all
    exact Bool.and_eq_true_iff.mpr ⟨first, ih others⟩

/-- What the symbols of expressions build. -/
def Built : Symbol → Value AstExpr → Prop
  | .lvalue, .expr e => isLvalue e = true ∧ e.grammatical = true
  | _, .expr e => e.grammatical = true
  | _, .list es => AstExpr.allGrammatical es = true
  | _, .path _ => True

theorem Derives.built {s : Symbol} {ts : List Terminal} {v : Value AstExpr}
    (derived : Derives astActions s ts v) : Built s v := by
  have operation : ∀ {op : Token} {e f : AstExpr}, op ≠ .not → e.grammatical = true →
      f.grammatical = true → (AstExpr.bin op e f).grammatical = true := by
    intro op e f other left right
    simp [AstExpr.grammatical, other, left, right]
  induction derived with
  | pathField => trivial
  | pathName => trivial
  | lvaluePath => exact ⟨rfl, rfl⟩
  | lvalueIndex _ _ _ ih => exact ⟨rfl, ih⟩
  | lvalueDeref => exact ⟨rfl, rfl⟩
  | listOne _ ih => exact Bool.and_eq_true_iff.mpr ⟨ih, rfl⟩
  | listMore _ _ ih₁ ih₂ => exact AstExpr.allGrammatical_append ih₁ ih₂
  | listEmpty => rfl
  | expressionSimple _ ih => exact ih
  | expressionRelop _ operator _ ih₁ ih₂ =>
    exact operation (ne_not_of_operator (.inl operator)) ih₁ ih₂
  | simpleTerm _ ih => exact ih
  | @simpleSign ts t op e operator _ ih =>
    have signs : op = .plus ∨ op = .minus := by
      unfold sign at operator
      split at operator <;> cases operator <;> simp
    rcases signs with rfl | rfl
    · exact ih
    · exact ih
  | simpleAddop _ operator _ ih₁ ih₂ =>
    exact operation (ne_not_of_operator (.inr (.inl operator))) ih₁ ih₂
  | termFactor _ ih => exact ih
  | termMulop _ operator _ ih₁ ih₂ =>
    exact operation (ne_not_of_operator (.inr (.inr operator))) ih₁ ih₂
  | factorCall _ _ _ ih => exact ih
  | factorNum => rfl
  | factorParen _ ih => exact ih
  | factorNot _ ih => exact ih
  | factorLvalue _ ih => exact ih.2
  | factorAddrof _ ih => exact ih

theorem allGrammatical_astAll {others : List StmtTree}
    (each : ∀ t ∈ others, t.ast.grammatical = true) :
    AstStmt.allGrammatical (astAll others) = true := by
  induction others with
  | nil => rfl
  | cons t others ih =>
    exact Bool.and_eq_true_iff.mpr ⟨each t List.mem_cons_self,
      ih fun u member => each u (List.mem_cons_of_mem t member)⟩

theorem StmtTree.Derived.grammatical {t : StmtTree} (derived : t.Derived) :
    t.ast.grammatical = true := by
  have phrase : ∀ {c : Phrase}, Derives writtenActions .expression c.text (.expr c.tree) →
      c.tree.erase.grammatical = true := fun derived => (derives_of_phrase derived).built
  induction derived with
  | assign target source =>
    obtain ⟨lvalue, first⟩ := (derives_of_phrase target).built
    simp [ast, AstStmt.grammatical, lvalue, first, phrase source]
  | procName => rfl
  | procCall _ args => exact (derives_of_arguments args).built
  | empty => rfl
  | compound _ _ ih₁ ih₂ =>
    exact Bool.and_eq_true_iff.mpr ⟨ih₁, allGrammatical_astAll ih₂⟩
  | ifThen test _ ih => simp [ast, AstStmt.grammatical, phrase test, ih]
  | ifElse test _ _ ih₁ ih₂ => simp [ast, AstStmt.grammatical, phrase test, ih₁, ih₂]
  | whileDo test _ ih => simp [ast, AstStmt.grammatical, phrase test, ih]
  | forTo first last _ ih => simp [ast, AstStmt.grammatical, phrase first, phrase last, ih]

theorem CompoundText.grammatical {ts : List Terminal} {body : AstStmt} (text : CompoundText ts body) :
    body.isBlock = true ∧ body.grammatical = true := by
  obtain ⟨us, -, t, derived, -, same, rfl⟩ := text
  refine ⟨?_, derived.grammatical⟩
  have starts := derived.opens_of_append (same.symm.trans (List.append_nil _).symm)
  cases derived with
  | empty => rfl
  | compound => rfl
  | _ => cases starts

theorem standard_of_token {t : Terminal} {type : AstType} (here : standardType t = some type) :
    type.standard = true := by
  unfold standardType at here
  split at here <;> cases here <;> rfl

theorem fieldsWritten_append {fs : List (Name × AstType)} {n : Name} {t : AstType}
    (all : fieldsWritten fs = true) (last : t.written = true) :
    fieldsWritten (fs ++ [(n, t)]) = true := by
  induction fs with
  | nil => exact Bool.and_eq_true_iff.mpr ⟨last, rfl⟩
  | cons f fs ih =>
    obtain ⟨first, others⟩ := Bool.and_eq_true_iff.mp all
    exact Bool.and_eq_true_iff.mpr ⟨first, ih others⟩

def TypeValue.written : TypeValue → Bool
  | .type t => t.written
  | .fields fs => fieldsWritten fs

theorem TypeDerives.written {s : TypeSymbol} {ts : List Terminal} {v : TypeValue}
    (derived : TypeDerives s ts v) : v.written = true := by
  induction derived with
  | standard here =>
    have standard := standard_of_token here
    unfold AstType.standard at standard
    split at standard <;> first | rfl | cases standard
  | array here => exact standard_of_token here
  | pointer _ ih => exact ih
  | ref => rfl
  | record _ ih => exact ih
  | fieldsMore _ _ ih₁ ih₂ => exact fieldsWritten_append ih₁ ih₂
  | fieldsEmpty => rfl

theorem IdentifierList.ne_nil {ts : List Terminal} {names : List Name}
    (list : IdentifierList ts names) : names ≠ [] := by
  obtain ⟨_, _, _, _, -, rfl, -⟩ := separated_iff.mp list
  exact List.cons_ne_nil _ _

theorem ParameterText.grammatical {ts : List Terminal} {d : AstDecls} (text : ParameterText ts d) :
    d.grammatical = true := by
  obtain ⟨us, vs, -, names, type⟩ := text
  refine Bool.and_eq_true_iff.mpr ⟨?_, type.written⟩
  rw [Bool.not_eq_true', List.isEmpty_eq_false_iff]
  exact names.ne_nil

theorem DeclsText.grammatical {ts : List Terminal} {d : AstDecls} (text : DeclsText ts d) :
    d.grammatical = true := by
  obtain ⟨us, vs, -, names, type⟩ := text
  exact ParameterText.grammatical ⟨us, vs, rfl, names, type⟩

theorem TypeDeclText.written {ts : List Terminal} {d : AstTypeDecl} (text : TypeDeclText ts d) :
    d.written = true := by
  obtain ⟨us, -, type⟩ := text
  exact TypeDerives.written type

theorem ArgumentsText.grammatical {ts : List Terminal} {ds : List AstDecls}
    (text : ArgumentsText ts ds) : ds.all AstDecls.grammatical = true := by
  cases text with
  | list parameters =>
    obtain ⟨us, vs, d, ds, rfl, rfl, first, others⟩ := separated_iff.mp parameters
    refine Bool.and_eq_true_iff.mpr ⟨first.grammatical, others.all fun _ _ text => ?_⟩
    obtain ⟨ws, -, inside⟩ := text
    exact inside.grammatical
  | empty => rfl

theorem subprogsGrammatical_append {ds : List AstSubdecl} {d : AstSubdecl}
    (all : subprogsGrammatical ds = true) (last : d.grammatical = true) :
    subprogsGrammatical (ds ++ [d]) = true := by
  induction ds with
  | nil => exact Bool.and_eq_true_iff.mpr ⟨last, rfl⟩
  | cons e ds ih =>
    obtain ⟨first, others⟩ := Bool.and_eq_true_iff.mp all
    exact Bool.and_eq_true_iff.mpr ⟨first, ih others⟩

def SubprogramValue.grammatical : SubprogramValue → Bool
  | .one d => d.grammatical
  | .list ds => subprogsGrammatical ds

theorem SubprogramDerives.grammatical {s : SubprogramSymbol} {ts : List Terminal} {v : SubprogramValue}
    (derived : SubprogramDerives s ts v) : v.grammatical = true := by
  induction derived with
  | function formals result _ typeDecls vars compound ih =>
    rw [SubprogramValue.grammatical] at ih
    obtain ⟨block, inside⟩ := compound.grammatical
    simp [SubprogramValue.grammatical, AstSubdecl.grammatical, AstSig.grammatical, formals.grammatical, standard_of_token result,
      ih, typeDecls.all fun _ _ => TypeDeclText.written, vars.all fun _ _ => DeclsText.grammatical,
      block, inside]
  | procedure formals _ typeDecls vars compound ih =>
    rw [SubprogramValue.grammatical] at ih
    obtain ⟨block, inside⟩ := compound.grammatical
    simp [SubprogramValue.grammatical, AstSubdecl.grammatical, AstSig.grammatical, formals.grammatical, ih,
      typeDecls.all fun _ _ => TypeDeclText.written, vars.all fun _ _ => DeclsText.grammatical,
      block, inside]
  | more _ _ ih₁ ih₂ => exact subprogsGrammatical_append ih₁ ih₂
  | none => rfl

theorem ProgramDerives.grammatical {ts : List Terminal} {p : NamedProgram}
    (derived : ProgramDerives ts p) : p.grammatical = true := by
  cases derived with
  | program _ typeDecls vars inner compound =>
    obtain ⟨block, inside⟩ := compound.grammatical
    have subs := inner.grammatical
    rw [SubprogramValue.grammatical] at subs
    simp [NamedProgram.grammatical, typeDecls.all fun _ _ => TypeDeclText.written,
      vars.all fun _ _ => DeclsText.grammatical, subs, block, inside]

end Dragon
