import Dragon.Parser.Writing
import Mathlib.Data.List.TakeWhile

/-! The text of a program, and what the lexer and the parser make of it.

Tokens are written with a space between each two. What the parser builds from
the tokens of a text is written as a text from which it builds the same again.
-/

set_option autoImplicit false

namespace Dragon

open Readers StmtTree Lexical Pattern

/-! ## The tokens of the grammar -/

def isUsed : Terminal → Bool
  | .char c => singles.contains c
  | _ => true

theorem used_of_operator {t : Terminal} {op : Token} :
    (sign t = some op → isUsed t = true) ∧ (relop t = some op → isUsed t = true) ∧
      (addop t = some op → isUsed t = true) ∧ (mulop t = some op → isUsed t = true) := by
  refine ⟨?_, ?_, ?_, ?_⟩ <;> intro operator
  · unfold sign at operator
    split at operator <;> first | rfl | cases operator
  · unfold relop at operator
    split at operator <;> first | rfl | cases operator
  · unfold addop at operator
    split at operator <;> first | rfl | cases operator
  · unfold mulop at operator
    split at operator <;> first | rfl | cases operator

theorem Derives.used {E : Type} {A : Actions E} {s : Symbol} {ts : List Terminal} {v : Value E}
    (derived : Derives A s ts v) : ts.all isUsed = true := by
  induction derived with
  | expressionRelop _ operator _ ih₁ ih₂ => simp [ih₁, ih₂, used_of_operator.2.1 operator]
  | simpleSign operator _ ih => simp [ih, used_of_operator.1 operator]
  | simpleAddop _ operator _ ih₁ ih₂ => simp [ih₁, ih₂, used_of_operator.2.2.1 operator]
  | termMulop _ operator _ ih₁ ih₂ => simp [ih₁, ih₂, used_of_operator.2.2.2 operator]
  | pathField _ ih | lvalueDeref _ ih => simp [ih, isUsed, singles]
  | lvalueIndex _ _ ih₁ ih₂ | listMore _ _ ih₁ ih₂ | factorCall _ _ ih₁ ih₂ =>
    simp [ih₁, ih₂, isUsed, singles]
  | factorParen _ ih | factorNot _ ih | factorAddrof _ ih => simp [ih, isUsed, singles]
  | pathName | factorNum | listEmpty => rfl
  | lvaluePath _ ih | listOne _ ih | expressionSimple _ ih | simpleTerm _ ih | termFactor _ ih
  | factorLvalue _ ih => exact ih

theorem used_tokensAfter {others : List StmtTree} (each : ∀ t ∈ others, t.tokens.all isUsed = true) :
    (tokensAfter others).all isUsed = true := by
  induction others with
  | nil => rfl
  | cons t others ih =>
    have rest := ih fun u member => each u (List.mem_cons_of_mem t member)
    simp [tokensAfter, each t List.mem_cons_self, rest, isUsed, singles]

theorem StmtTree.Derived.used {t : StmtTree} (derived : t.Derived) : t.tokens.all isUsed = true := by
  induction derived with
  | assign target source => simp [tokens, target.used, source.used, isUsed]
  | procName path => exact path.used
  | procCall path args => exact (Derives.factorCall path args).used
  | empty => rfl
  | compound _ _ ih₁ ih₂ => simp [tokens, ih₁, used_tokensAfter ih₂, isUsed]
  | ifThen test _ ih => simp [tokens, test.used, ih, isUsed]
  | ifElse test _ _ ih₁ ih₂ => simp [tokens, test.used, ih₁, ih₂, isUsed]
  | whileDo test _ ih => simp [tokens, test.used, ih, isUsed]
  | forTo first last _ ih => simp [tokens, first.used, last.used, ih, isUsed]

theorem used_of_standard {t : Terminal} {type : AstType} (here : standardType t = some type) :
    isUsed t = true := by
  unfold standardType at here
  split at here <;> first | rfl | cases here

theorem TypeDerives.used {s : TypeSymbol} {ts : List Terminal} {v : TypeValue}
    (derived : TypeDerives s ts v) : ts.all isUsed = true := by
  induction derived with
  | standard here => simp [used_of_standard here]
  | @array _ _ t _ here => cases t <;> first | rfl | cases here
  | pointer _ ih => simp [ih, isUsed, singles]
  | ref => rfl
  | record _ ih => simp [ih, isUsed]
  | fieldsMore _ _ ih₁ ih₂ => simp [ih₁, ih₂, isUsed, singles]
  | fieldsEmpty => rfl

theorem IdentifierList.used {ts : List Terminal} {names : List Name} (list : IdentifierList ts names) :
    ts.all isUsed = true :=
  list.all_tokens rfl fun us n single => by
    rw [single]
    rfl

theorem ParameterText.used {ts : List Terminal} {d : AstDecls} (text : ParameterText ts d) :
    ts.all isUsed = true := by
  obtain ⟨us, vs, rfl, names, type⟩ := text
  simp [names.used, TypeDerives.used type, isUsed, singles]

theorem DeclsText.used {ts : List Terminal} {d : AstDecls} (text : DeclsText ts d) :
    ts.all isUsed = true := by
  obtain ⟨us, vs, rfl, names, type⟩ := text
  simp [names.used, TypeDerives.used type, isUsed, singles]

theorem TypeDeclText.used {ts : List Terminal} {d : AstTypeDecl} (text : TypeDeclText ts d) :
    ts.all isUsed = true := by
  obtain ⟨us, rfl, type⟩ := text
  simp [TypeDerives.used type, isUsed, singles]

theorem ArgumentsText.used {ts : List Terminal} {ds : List AstDecls} (text : ArgumentsText ts ds) :
    ts.all isUsed = true := by
  cases text with
  | list parameters =>
    have inside := parameters.all_tokens (p := isUsed) rfl fun _ _ => ParameterText.used
    simp [inside, isUsed, singles]
  | empty => rfl

theorem CompoundText.used {ts : List Terminal} {body : AstStmt} (text : CompoundText ts body) :
    ts.all isUsed = true := by
  obtain ⟨us, rfl, t, derived, -, same, -⟩ := text
  rw [← same]
  exact derived.used

theorem SubprogramDerives.used {s : SubprogramSymbol} {ts : List Terminal} {v : SubprogramValue}
    (derived : SubprogramDerives s ts v) : ts.all isUsed = true := by
  induction derived with
  | @function _ _ _ _ _ _ t _ _ _ _ _ _ formals result _ typeDecls vars compound ih =>
    have here : ∀ us, (t :: us).all isUsed = us.all isUsed := by
      intro us
      rw [List.all_cons, used_of_standard result, Bool.true_and]
    simp [-List.all_eq_true, formals.used, here, ih, typeDecls.all_tokens fun _ _ => TypeDeclText.used,
      vars.all_tokens fun _ _ => DeclsText.used, compound.used, isUsed, singles]
  | procedure formals _ typeDecls vars compound ih =>
    simp [formals.used, ih, typeDecls.all_tokens fun _ _ => TypeDeclText.used,
      vars.all_tokens fun _ _ => DeclsText.used, compound.used, isUsed, singles]
  | more _ _ ih₁ ih₂ => simp [ih₁, ih₂, isUsed, singles]
  | none => rfl

theorem ProgramDerives.used {ts : List Terminal} {p : NamedProgram} (derived : ProgramDerives ts p) :
    ts.all isUsed = true := by
  cases derived with
  | program imports typeDecls vars inner compound =>
    have names : ∀ {us names}, OptionalIdentifierList us names → us.all isUsed = true := by
      rintro us names (list | ⟨rfl, -⟩)
      · exact list.used
      · rfl
    simp [names imports, typeDecls.all_tokens fun _ _ => TypeDeclText.used,
      vars.all_tokens fun _ _ => DeclsText.used, inner.used, compound.used, isUsed, singles]

/-! ## Spellings -/

def Terminal.spelling : Terminal → List Char
  | .ID n | .NUM n => n.toList
  | .char c => [c]
  | t => ((literals.find? fun l => l.2 == t).map Prod.fst).getD []

/-- A name is an identifier and no keyword, a number has the shape of one. -/
def Terminal.spelled : Terminal → Bool
  | .ID n => identifier.accepts n.toList && !(literals.map Prod.fst).contains n.toList
  | .NUM n => number.accepts n.toList
  | _ => true

theorem Terminal.spelling_spells {t : Terminal} (used : isUsed t = true) (spelled : t.spelled = true) :
    Spelling t.spelling t := by
  cases t with
  | ID n =>
    simp only [Terminal.spelled, Bool.and_eq_true, Bool.not_eq_true', List.contains_eq_mem,
      decide_eq_false_iff_not] at spelled
    have named := Spelling.name (accepts_iff.mp spelled.1) spelled.2
    rwa [String.ofList_toList] at named
  | NUM n =>
    have numbered := Spelling.numeral (accepts_iff.mp spelled)
    rwa [String.ofList_toList] at numbered
  | char c => exact .char (List.contains_iff_mem.mp used)
  | _ => exact .literal (by decide +kernel)

def writeText : List Terminal → List Char
  | [] => []
  | [t] => t.spelling
  | t :: ts => t.spelling ++ ' ' :: writeText ts

theorem drglLex_writeText {ts : List Terminal} (used : ts.all isUsed = true)
    (spelled : ts.all Terminal.spelled = true) : drglLex (writeText ts) = ts := by
  induction ts with
  | nil => rfl
  | cons t ts ih =>
    simp only [List.all_cons, Bool.and_eq_true] at used spelled
    have here := Terminal.spelling_spells used.1 spelled.1
    cases ts with
    | nil =>
      have last := scan_spelling here (.inl rfl)
      rw [List.append_nil] at last
      exact last
    | cons u ts =>
      have space : Separator ' ' := .inl rfl
      rw [writeText, scan_spelling here (.inr ⟨' ', _, rfl, space⟩), scan_separator space,
        ih used.2 spelled.2]
      exact List.cons_ne_nil u ts

theorem tokensToEnd_writeText {ts : List Terminal} (used : ts.all isUsed = true)
    (spelled : ts.all Terminal.spelled = true) : tokensToEnd (writeText ts) = ts := by
  rw [tokensToEnd, drglLex_writeText used spelled, List.takeWhile_eq_self_iff]
  intro t member
  apply decide_eq_true
  -- no production has a 0
  rintro rfl
  have unused : isUsed (.char nul) = false := by decide +kernel
  exact Bool.false_ne_true (unused.symm.trans (List.all_eq_true.mp used _ member))

def NamedProgram.text (p : NamedProgram) : List Char := writeText p.write

/-! ## The names of a program come from its text -/

theorem spelled_drglLex (s : List Char) : (drglLex s).all Terminal.spelled = true := by
  rw [List.all_eq_true]
  intro t member
  obtain ⟨l, here, token⟩ := List.mem_filterMap.mp member
  obtain ⟨s', next⟩ := Scanner.next_of_mem_scan total_drglScanner here
  obtain ⟨-, r, found, action⟩ := Scanner.next_ofRules.mp next
  have returned : r.action l.text = some t := action.symm.trans token
  by_cases entry : l.text ∈ literals.map Prod.fst
  · -- the rule of a keyword or an operator comes before those of names and numbers
    obtain ⟨k, member', same⟩ := List.mem_map.mp entry
    obtain ⟨r', found', returned'⟩ := (Spelling.literal (w := k.1) (t := k.2) member').ruleFor
    rw [same, found] at found'
    cases found'
    rw [same, returned] at returned'
    have every : ∀ k ∈ literals, k.2.spelled = true := List.all_iff_forall_prop.mp (by decide +kernel)
    rw [Option.some.inj returned']
    exact every k member'
  · have comment : ¬ Matched commentRules l.text := by
      intro matched
      obtain ⟨r', found', nothing⟩ := ruleFor_comment matched
      rw [found] at found'
      cases found'
      rw [nothing] at returned
      cases returned
    cases space : whitespace.accepts l.text with
    | true =>
      have first : ruleFor tokenRules l.text = some ⟨whitespace.accepts, fun _ => Option.none⟩ :=
        List.find?_cons_of_pos space
      rw [ruleFor_token comment, first] at found
      cases found
      cases returned
    | false =>
      rw [ruleFor_of_other comment space entry] at found
      have accepted := List.find?_some found
      rcases List.mem_of_find?_eq_some found with _ | ⟨_, _ | ⟨_, _ | ⟨_, none_⟩⟩⟩
      · cases returned
        simp only [Terminal.spelled, String.toList_ofList, List.contains_eq_mem, entry,
          decide_false, Bool.not_false, Bool.and_true]
        exact accepted
      · cases returned
        rw [Terminal.spelled, String.toList_ofList]
        exact accepted
      · obtain ⟨c, -, same⟩ := Option.map_eq_some_iff.mp returned
        rw [← same]
        rfl
      · cases none_

theorem spelled_tokensToEnd (s : List Char) : (tokensToEnd s).all Terminal.spelled = true := by
  rw [List.all_eq_true]
  intro t member
  have lexed := (List.takeWhile_sublist _).subset member
  exact List.all_eq_true.mp (spelled_drglLex s) t lexed

def Value.write : Value AstExpr → List Terminal
  | .path p => p.write
  | .expr e => e.write
  | .list es => AstExpr.writeArguments es

theorem spelled_operator (op : Token) : op.write.spelled = true := by
  cases op <;> rfl

theorem AstExpr.writeArguments_append (es : List AstExpr) (e : AstExpr) :
    (writeArguments (es ++ [e])).all Terminal.spelled =
      ((writeArguments es).all Terminal.spelled && e.write.all Terminal.spelled) := by
  have others : ∀ es, (writeOthers (es ++ [e])).all Terminal.spelled =
      ((writeOthers es).all Terminal.spelled && e.write.all Terminal.spelled) := by
    intro es
    induction es with
    | nil => simp [writeOthers, Terminal.spelled]
    | cons f es ih =>
      simp only [List.cons_append, writeOthers, List.all_cons, List.all_append, ih, Bool.and_assoc]
  cases es with
  | nil => simp [writeArguments, writeOthers]
  | cons f es =>
    simp only [List.cons_append, writeArguments, List.all_append, others, Bool.and_assoc]

theorem AstPath.write_append (p : AstPath) (n : Name) :
    (astPathAppend p n).write = p.write ++ [.char '.', .ID n] := by
  simp [AstPath.write, astPathAppend]

theorem Derives.spelled {s : Symbol} {ts : List Terminal} {v : Value AstExpr}
    (derived : Derives astActions s ts v) (spelled : ts.all Terminal.spelled = true) :
    v.write.all Terminal.spelled = true := by
  have bin : ∀ {op : Token} {e f : AstExpr}, e.write.all Terminal.spelled = true →
      f.write.all Terminal.spelled = true →
      (AstExpr.bin op e f).write.all Terminal.spelled = true := by
    intro op e f left right
    simp only [AstExpr.write, List.all_cons, List.all_append, left, right, spelled_operator]
    rfl
  induction derived with
  | pathField _ ih =>
    simp only [List.all_append, Bool.and_eq_true] at spelled
    simp only [Value.write, AstPath.write_append, List.all_append, Bool.and_eq_true]
    exact ⟨ih spelled.1, spelled.2⟩
  | pathName | factorNum => exact spelled
  | listEmpty => rfl
  | lvaluePath _ ih | expressionSimple _ ih | simpleTerm _ ih | termFactor _ ih
  | factorLvalue _ ih => exact ih spelled
  | lvalueIndex _ _ ih₁ ih₂ | factorCall _ _ ih₁ ih₂ =>
    simp only [List.all_append, List.all_cons, Bool.and_eq_true] at spelled
    simp only [Value.write, astActions, AstExpr.write, List.all_append, List.all_cons,
      Bool.and_eq_true]
    exact ⟨ih₁ spelled.1, spelled.2.1, ih₂ spelled.2.2.1, spelled.2.2.2⟩
  | lvalueDeref _ ih =>
    simp only [List.all_append, Bool.and_eq_true] at spelled
    simp only [Value.write, astActions, AstExpr.write, List.all_append, Bool.and_eq_true]
    exact ⟨ih spelled.1, spelled.2⟩
  | listOne _ ih =>
    simp only [Value.write, AstExpr.writeArguments, AstExpr.writeOthers, List.append_nil]
    exact ih spelled
  | listMore _ _ ih₁ ih₂ =>
    simp only [List.all_append, List.all_cons, Bool.and_eq_true] at spelled
    simp only [Value.write, AstExpr.writeArguments_append, Bool.and_eq_true]
    exact ⟨ih₁ spelled.1, ih₂ spelled.2.2⟩
  | expressionRelop _ _ _ ih₁ ih₂ | simpleAddop _ _ _ ih₁ ih₂ | termMulop _ _ _ ih₁ ih₂ =>
    simp only [List.all_append, List.all_cons, Bool.and_eq_true] at spelled
    exact bin (ih₁ spelled.1) (ih₂ spelled.2.2)
  | @simpleSign _ t op _ operator _ ih =>
    simp only [List.all_cons, Bool.and_eq_true] at spelled
    have inside := ih spelled.2
    simp only [Value.write] at inside
    simp only [Value.write, astActions, AstExpr.write_un (ne_not_of_sign operator), List.all_cons,
      List.all_append, inside, spelled_operator]
    rfl
  | factorParen _ ih =>
    simp only [List.all_cons, List.all_append, Bool.and_eq_true] at spelled
    exact ih spelled.2.1
  | factorNot _ ih | factorAddrof _ ih =>
    simp only [List.all_cons, Bool.and_eq_true] at spelled
    simp only [Value.write, astActions, AstExpr.write, List.all_cons, Bool.and_eq_true]
    exact ⟨spelled.1, ih spelled.2⟩

theorem spelled_phrase {s : Symbol} {ts : List Terminal} {w : Written}
    (derived : Derives writtenActions s ts (.expr w)) (spelled : ts.all Terminal.spelled = true) :
    w.erase.write.all Terminal.spelled = true := (derives_of_phrase derived).spelled spelled

theorem spelled_writeAfter {others : List StmtTree}
    (each : ∀ t ∈ others, t.tokens.all Terminal.spelled = true →
      t.ast.write.all Terminal.spelled = true)
    (spelled : (tokensAfter others).all Terminal.spelled = true) :
    (AstStmt.writeAfter (astAll others)).all Terminal.spelled = true := by
  induction others with
  | nil => rfl
  | cons t others ih =>
    simp only [tokensAfter, List.all_cons, List.all_append, Bool.and_eq_true] at spelled
    simp only [astAll, AstStmt.writeAfter, List.all_cons, List.all_append, Bool.and_eq_true]
    exact ⟨spelled.1, each t List.mem_cons_self spelled.2.1,
      ih (fun u member => each u (List.mem_cons_of_mem t member)) spelled.2.2⟩

theorem StmtTree.Derived.spelled {t : StmtTree} (derived : t.Derived)
    (spelled : t.tokens.all Terminal.spelled = true) : t.ast.write.all Terminal.spelled = true := by
  induction derived with
  | assign target source =>
    simp only [tokens, List.all_cons, List.all_append, Bool.and_eq_true] at spelled
    simp only [ast, AstStmt.write, List.all_cons, List.all_append, Bool.and_eq_true]
    exact ⟨spelled_phrase target spelled.1, spelled.2.1, spelled_phrase source spelled.2.2⟩
  | procName path =>
    have name := (path_derives_iff.mpr path).spelled spelled
    simp only [Value.write] at name
    simp only [ast, AstStmt.write, Written.eraseAll, AstExpr.writeArguments, List.all_append, name]
    rfl
  | procCall path args =>
    simp only [tokens, List.all_cons, List.all_append, Bool.and_eq_true] at spelled
    simp only [ast, AstStmt.write, List.all_cons, List.all_append, Bool.and_eq_true]
    exact ⟨(path_derives_iff.mpr path).spelled spelled.1, spelled.2.1,
      (derives_of_arguments args).spelled spelled.2.2.1, spelled.2.2.2⟩
  | empty => rfl
  | compound _ _ ih₁ ih₂ =>
    simp only [tokens, List.all_cons, List.all_append, Bool.and_eq_true] at spelled
    simp only [ast, AstStmt.write, List.all_cons, List.all_append, Bool.and_eq_true]
    exact ⟨spelled.1, ih₁ spelled.2.1, spelled_writeAfter ih₂ spelled.2.2.1, spelled.2.2.2⟩
  | ifThen test _ ih =>
    simp only [tokens, List.all_cons, List.all_append, Bool.and_eq_true] at spelled
    simp only [ast, AstStmt.write, List.all_cons, List.all_append, Bool.and_eq_true]
    exact ⟨spelled.1, spelled_phrase test spelled.2.1, spelled.2.2.1, ih spelled.2.2.2, rfl, rfl, rfl, rfl⟩
  | ifElse test _ _ ih₁ ih₂ =>
    simp only [tokens, List.all_cons, List.all_append, Bool.and_eq_true] at spelled
    simp only [ast, AstStmt.write, List.all_cons, List.all_append, Bool.and_eq_true]
    exact ⟨spelled.1, spelled_phrase test spelled.2.1, spelled.2.2.1, ih₁ spelled.2.2.2.1,
      spelled.2.2.2.2.1, ih₂ spelled.2.2.2.2.2⟩
  | whileDo test _ ih =>
    simp only [tokens, List.all_cons, List.all_append, Bool.and_eq_true] at spelled
    simp only [ast, AstStmt.write, List.all_cons, List.all_append, Bool.and_eq_true]
    exact ⟨spelled.1, spelled_phrase test spelled.2.1, spelled.2.2.1, ih spelled.2.2.2⟩
  | forTo first last _ ih =>
    simp only [tokens, List.all_cons, List.all_append, Bool.and_eq_true] at spelled
    simp only [ast, AstStmt.write, List.all_cons, List.all_append, Bool.and_eq_true]
    exact ⟨spelled.1, spelled.2.1, spelled.2.2.1, spelled_phrase first spelled.2.2.2.1,
      spelled.2.2.2.2.1, spelled_phrase last spelled.2.2.2.2.2.1, spelled.2.2.2.2.2.2.1,
      ih spelled.2.2.2.2.2.2.2⟩

/-! Types and declarations are written as they were. -/

theorem writeFields_append (fs : List (Name × AstType)) (n : Name) (t : AstType) :
    writeFields (fs ++ [(n, t)]) =
      writeFields fs ++ .ID n :: .char ':' :: (t.write ++ [.char ';']) := by
  induction fs with
  | nil => simp [writeFields]
  | cons f fs ih => simp [writeFields, ih]

theorem write_of_standard {t : Terminal} {type : AstType} (here : standardType t = some type) :
    type.write = [t] := by
  unfold standardType at here
  split at here <;> cases here <;> rfl

def TypeValue.write : TypeValue → List Terminal
  | .type t => t.write
  | .fields fs => writeFields fs

theorem TypeDerives.write_eq {s : TypeSymbol} {ts : List Terminal} {v : TypeValue}
    (derived : TypeDerives s ts v) : v.write = ts := by
  induction derived with
  | standard here => exact write_of_standard here
  | array here => rw [TypeValue.write, AstType.write, write_of_standard here]
  | pointer _ ih => rw [TypeValue.write, AstType.write, ← ih, TypeValue.write]
  | ref => rfl
  | record _ ih => rw [TypeValue.write, AstType.write, ← ih, TypeValue.write]
  | fieldsMore _ _ ih₁ ih₂ =>
    rw [TypeValue.write, writeFields_append, ← ih₁, ← ih₂, TypeValue.write, TypeValue.write]
  | fieldsEmpty => rfl

theorem TypeText.write_eq {ts : List Terminal} {t : AstType} (text : TypeText ts t) : t.write = ts :=
  TypeDerives.write_eq text

theorem IdentifierList.write_eq {ts : List Terminal} {names : List Name}
    (list : IdentifierList ts names) : writeNames names = ts := by
  obtain ⟨us, vs, n, names, rfl, rfl, rfl, others⟩ := separated_iff.mp list
  suffices same : (names.flatMap fun m => [.char ',', .ID m]) = vs by
    rw [writeNames, same]
    rfl
  clear list
  induction others using Many.frontInduction with
  | none => rfl
  | cons _ _ _ _ first _ ih =>
    obtain ⟨ws, rfl, rfl⟩ := first
    simp [ih]

theorem ParameterText.write_eq {ts : List Terminal} {d : AstDecls} (text : ParameterText ts d) :
    d.writeGroup = ts := by
  obtain ⟨us, vs, rfl, names, type⟩ := text
  rw [AstDecls.writeGroup, names.write_eq, TypeText.write_eq type]

theorem flatMap_eq_of_many {α : Type} {L : Language Terminal α} {write : α → List Terminal}
    {ts : List Terminal} {xs : List α} (list : Many L ts xs)
    (each : ∀ us x, L us x → write x = us) : xs.flatMap write = ts := by
  induction list with
  | none => rfl
  | more _ last ih => simp [ih, each _ _ last]

theorem DeclsText.write_eq {ts : List Terminal} {d : AstDecls} (text : DeclsText ts d) :
    d.write = ts := by
  obtain ⟨us, vs, rfl, names, type⟩ := text
  rw [AstDecls.write, ParameterText.write_eq ⟨us, vs, rfl, names, type⟩]
  simp

theorem TypeDeclText.write_eq {ts : List Terminal} {d : AstTypeDecl} (text : TypeDeclText ts d) :
    d.write = ts := by
  obtain ⟨us, rfl, type⟩ := text
  rw [AstTypeDecl.write, TypeText.write_eq type]

theorem ArgumentsText.write_eq {ts : List Terminal} {ds : List AstDecls}
    (text : ArgumentsText ts ds) : writeFormals ds = ts := by
  cases text with
  | list parameters =>
    obtain ⟨us, vs, d, ds, rfl, rfl, first, others⟩ := separated_iff.mp parameters
    have same : ds.flatMap (fun e => .char ';' :: e.writeGroup) = vs :=
      flatMap_eq_of_many others fun ws e text => by
        obtain ⟨zs, rfl, inside⟩ := text
        rw [inside.write_eq]
    rw [writeFormals, first.write_eq, same]
  | empty => rfl

theorem CompoundText.spelled {ts : List Terminal} {body : AstStmt} (text : CompoundText ts body)
    (spelled : ts.all Terminal.spelled = true) : body.write.all Terminal.spelled = true := by
  obtain ⟨us, rfl, t, derived, -, same, rfl⟩ := text
  rw [← same] at spelled
  exact derived.spelled spelled

theorem writeSubprograms_append (ds : List AstSubdecl) (d : AstSubdecl) :
    writeSubprograms (ds ++ [d]) = writeSubprograms ds ++ (d.write ++ [.char ';']) := by
  induction ds with
  | nil => simp [writeSubprograms]
  | cons e ds ih => simp [writeSubprograms, ih]

def SubprogramValue.write : SubprogramValue → List Terminal
  | .one d => d.write
  | .list ds => writeSubprograms ds

theorem SubprogramDerives.spelled {s : SubprogramSymbol} {ts : List Terminal} {v : SubprogramValue}
    (derived : SubprogramDerives s ts v) (spelled : ts.all Terminal.spelled = true) :
    v.write.all Terminal.spelled = true := by
  induction derived with
  | function formals result _ typeDecls vars compound ih =>
    simp only [List.all_cons, List.all_append, Bool.and_eq_true] at spelled
    obtain ⟨function, name, args, colon, type, semicolon, us, vs, ws, xs⟩ := spelled
    simp only [SubprogramValue.write, AstSubdecl.write, AstSig.write, formals.write_eq, write_of_standard result,
      flatMap_eq_of_many typeDecls fun _ _ => TypeDeclText.write_eq,
      flatMap_eq_of_many vars fun _ _ => DeclsText.write_eq, List.all_cons, List.all_append,
      Bool.and_eq_true, List.all_nil]
    exact ⟨⟨function, name, args, colon, type, trivial⟩, semicolon, ih us, vs, ws, compound.spelled xs⟩
  | procedure formals _ typeDecls vars compound ih =>
    simp only [List.all_cons, List.all_append, Bool.and_eq_true] at spelled
    obtain ⟨procedure, name, args, semicolon, us, vs, ws, xs⟩ := spelled
    simp only [SubprogramValue.write, AstSubdecl.write, AstSig.write, formals.write_eq,
      flatMap_eq_of_many typeDecls fun _ _ => TypeDeclText.write_eq,
      flatMap_eq_of_many vars fun _ _ => DeclsText.write_eq, List.all_cons, List.all_append,
      Bool.and_eq_true]
    exact ⟨⟨procedure, name, args⟩, semicolon, ih us, vs, ws, compound.spelled xs⟩
  | more _ _ ih₁ ih₂ =>
    simp only [List.all_append, Bool.and_eq_true] at spelled
    simp only [SubprogramValue.write, writeSubprograms_append, List.all_append, Bool.and_eq_true]
    exact ⟨ih₁ spelled.1, ih₂ spelled.2.1, spelled.2.2⟩
  | none => rfl

theorem ProgramDerives.spelled {ts : List Terminal} {p : NamedProgram} (derived : ProgramDerives ts p)
    (spelled : ts.all Terminal.spelled = true) : p.write.all Terminal.spelled = true := by
  cases derived with
  | @program n ts us vs ws xs args types decls subprogs body imports typeDecls vars inner compound =>
    have names : writeNames args = ts := by
      rcases imports with list | ⟨rfl, rfl⟩
      · exact list.write_eq
      · rfl
    simp only [List.all_cons, List.all_append, Bool.and_eq_true] at spelled
    obtain ⟨program, name, opening, args_, closing, semicolon, us_, vs_, ws_, xs_, period⟩ := spelled
    simp only [NamedProgram.write, names,
      flatMap_eq_of_many typeDecls fun _ _ => TypeDeclText.write_eq,
      flatMap_eq_of_many vars fun _ _ => DeclsText.write_eq, List.all_cons, List.all_append,
      Bool.and_eq_true]
    exact ⟨program, name, opening, args_, closing, semicolon, us_, vs_, inner.spelled ws_,
      compound.spelled xs_, period⟩

/-! ## What is read back -/

theorem NamedProgram.parse_text {p : NamedProgram} (grammatical : p.grammatical = true)
    (spelled : p.write.all Terminal.spelled = true) : yyparse (tokensToEnd p.text) = some p := by
  have derived := p.derives_write grammatical
  rw [NamedProgram.text, tokensToEnd_writeText derived.used spelled]
  exact parses_iff.mpr derived

/-- A token sequence is the text of at most one program, and the parser finds it. -/
theorem program_unambiguous {ts : List Terminal} {p : NamedProgram} (derived : ProgramDerives ts p) :
    yyparse ts = some p ∧ ∀ q, ProgramDerives ts q → q = p := by
  have parsed := parses_iff.mpr derived
  refine ⟨parsed, fun q other => ?_⟩
  have parsed' := parses_iff.mpr other
  rw [parsed] at parsed'
  exact (Option.some.inj parsed').symm

-- program for_test(); begin for i := 0 to 10 do write(i) end.
def forProgram : List Terminal := [.PROGRAM, .ID "for_test", .char '(', .char ')', .char ';', .TBEGIN,
  .FOR, .ID "i", .ASSIGNOP, .NUM "0", .TO, .NUM "10", .DO, .ID "write", .char '(', .ID "i", .char ')',
  .END, .char '.']

theorem forProgram_unambiguous : ∃ p, yyparse forProgram = some p ∧
    ∀ q, ProgramDerives forProgram q → q = p :=
  ⟨_, program_unambiguous (parses_iff.mp rfl)⟩

/-- A text that the front end takes is taken again, with the same tree, when its program is printed
as a text. The programs that are printed so are those that keep to the shape of the productions. -/
theorem text_roundTrip :
    (∀ s p, yyparse (tokensToEnd s) = some p → yyparse (tokensToEnd p.text) = some p) ∧
      ∀ p : NamedProgram, p.write.all Terminal.spelled = true →
        ((∃ s, yyparse (tokensToEnd s) = some p) ↔ p.grammatical = true) := by
  constructor
  · intro s p parsed
    have derived := parses_iff.mp parsed
    exact p.parse_text derived.grammatical (derived.spelled (spelled_tokensToEnd s))
  · intro p spelled
    constructor
    · rintro ⟨s, parsed⟩
      exact (parses_iff.mp parsed).grammatical
    · intro grammatical
      exact ⟨p.text, p.parse_text grammatical spelled⟩

theorem forProgram_roundTrip : ∃ p, yyparse (tokensToEnd p.text) = some p ∧ p.name = "for_test" := by
  have parsed : ∃ p, yyparse (tokensToEnd (writeText forProgram)) = some p ∧ p.name = "for_test" := by
    rw [tokensToEnd_writeText (by decide) (by decide +kernel)]
    exact ⟨_, rfl, rfl⟩
  obtain ⟨p, parsed, name⟩ := parsed
  exact ⟨p, text_roundTrip.1 (writeText forProgram) p parsed, name⟩

end Dragon
