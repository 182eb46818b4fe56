import Dragon.Parser.Descent
import Dragon.Parser.Statements

/-! Statements are read by recursive descent.

After a THEN and its statement, an ELSE that comes next is taken. This is how
the precedence of THEN below ELSE settles the conflict, so what is read is what
the derivations that respect the precedence derive.
-/

set_option autoImplicit false

namespace Dragon

open Readers StmtTree

def identifierOf : Terminal → Option Name
  | .ID n => some n
  | _ => none

def numberOf : Terminal → Option Name
  | .NUM n => some n
  | _ => none

theorem identifierOf_eq_some {t : Terminal} {n : Name} : identifierOf t = some n ↔ t = .ID n := by
  cases t <;> simp [identifierOf]

theorem numberOf_eq_some {t : Terminal} {n : Name} : numberOf t = some n ↔ t = .NUM n := by
  cases t <;> simp [numberOf]

/-- A procedure statement or an assignment, after the path it starts with. -/
def readAfterPath (p : AstPath) : Reader Terminal AstStmt
  | .char '(' :: s =>
    (do let args ← readArguments astActions
        token (.char ')')
        return .proc p args : Reader Terminal AstStmt) s
  | s =>
    (do let lvalue ← readSuffix astActions p
        fun
          | .ASSIGNOP :: s =>
            (do let rvalue ← readExpression astActions
                return .assign lvalue rvalue : Reader Terminal AstStmt) s
          | s =>
            match lvalue with
            | .path _ => some (.proc p [], s)
            | _ => none : Reader Terminal AstStmt) s

def readBlock (statement : Reader Terminal AstStmt) (n : Nat) : Reader Terminal AstStmt
  | .END :: s => some (.null, s)
  | s =>
    (do let body ← separated (.char ';') statement n
        token .END
        return .stmts body : Reader Terminal AstStmt) s

def readElse (statement : Reader Terminal AstStmt) : Reader Terminal AstStmt
  | .ELSE :: s => statement s
  | s => some (.null, s)

def readStatement : Nat → Reader Terminal AstStmt
  | 0, _ => none
  | n + 1, s =>
    match s with
    | .TBEGIN :: s => readBlock (readStatement n) n s
    | .IF :: s =>
      (do let cond ← readExpression astActions
          token .THEN
          let thenn ← readStatement n
          let elze ← readElse (readStatement n)
          return .ite cond thenn elze : Reader Terminal AstStmt) s
    | .WHILE :: s =>
      (do let cond ← readExpression astActions
          token .DO
          let body ← readStatement n
          return .wdo cond body : Reader Terminal AstStmt) s
    | .FOR :: s =>
      (do let id ← one identifierOf
          token .ASSIGNOP
          let start ← readExpression astActions
          token .TO
          let finish ← readExpression astActions
          token .DO
          let body ← readStatement n
          return .foor id start finish body : Reader Terminal AstStmt) s
    | s => (do let p ← readPath astActions; readAfterPath p : Reader Terminal AstStmt) s

/-! ## Expressions in statements -/

theorem phrase_of_derives {ts : List Terminal} {e : AstExpr}
    (derived : Derives astActions .expression ts (.expr e)) :
    ∃ w, Derives writtenActions .expression ts (.expr w) ∧ w.erase = e := by
  obtain ⟨_, written, agree⟩ := derived.agree Written.compatible_erase
  cases agree with
  | expr related => exact ⟨_, written, related⟩

theorem derives_of_phrase {s : Symbol} {ts : List Terminal} {w : Written}
    (derived : Derives writtenActions s ts (.expr w)) :
    Derives astActions s ts (.expr w.erase) := by
  obtain ⟨_, read, agree⟩ := derived.agree Written.compatible_erase.flip
  cases agree with
  | expr related =>
    rw [related]
    exact read

theorem path_derives_iff {ts : List Terminal} {p : AstPath} :
    Derives astActions .path ts (.path p) ↔ Derives writtenActions .path ts (.path p) := by
  constructor
  · intro derived
    obtain ⟨_, written, agree⟩ := derived.agree Written.compatible_erase
    cases agree
    exact written
  · intro derived
    obtain ⟨_, read, agree⟩ := derived.agree Written.compatible_erase.flip
    cases agree
    exact read

theorem arguments_of_derives {ts : List Terminal} {es : List AstExpr}
    (derived : Derives astActions .expressionList ts (.list es)) :
    ∃ ws, Derives writtenActions .expressionList ts (.list ws) ∧ Written.eraseAll ws = es := by
  obtain ⟨_, written, agree⟩ := derived.agree Written.compatible_erase
  cases agree with
  | list related => exact ⟨_, written, Written.eraseAll_eq related⟩

theorem derives_of_arguments {ts : List Terminal} {ws : List Written}
    (derived : Derives writtenActions .expressionList ts (.list ws)) :
    Derives astActions .expressionList ts (.list (Written.eraseAll ws)) := by
  obtain ⟨_, read, agree⟩ := derived.agree Written.compatible_erase.flip
  cases agree with
  | list related =>
    rw [Written.eraseAll_eq related.flip]
    exact read

theorem exact_phrase {n : Nat} : Exact n (readExpression astActions)
    (fun ts e => ∃ w, Derives writtenActions .expression ts (.expr w) ∧ w.erase = e)
    (Clear isOperator) where
  sound taken := by
    obtain ⟨ts, rfl, derived⟩ := exact_expression (n := n).sound taken
    exact ⟨ts, rfl, phrase_of_derives derived⟩
  complete := by
    rintro ts r _ ⟨w, derived, rfl⟩ short ends
    exact exact_expression.complete (derives_of_phrase derived) short ends

theorem readExpression_append {c : Phrase} {r : List Terminal}
    (derived : Derives writtenActions .expression c.text (.expr c.tree)) (ends : Clear isOperator r) :
    readExpression astActions (c.text ++ r) = some (c.tree.erase, r) :=
  exact_phrase.complete ⟨c.tree, derived, rfl⟩ (Nat.lt_succ_self _) ends

theorem phrase_of_read {s r : List Terminal} {e : AstExpr}
    (taken : readExpression astActions s = some (e, r)) :
    ∃ c : Phrase, s = c.text ++ r ∧ Derives writtenActions .expression c.text (.expr c.tree) ∧
      c.tree.erase = e := by
  obtain ⟨ts, rfl, w, derived, same⟩ := (exact_phrase (n := 0)).sound taken
  exact ⟨⟨ts, w⟩, rfl, derived, same⟩

/-! ## Statements -/

/-- A reader takes the statements that respect the precedence, up to a length. -/
structure StatementReader (n : Nat) (read : Reader Terminal AstStmt) : Prop where
  sound : ∀ {s r : List Terminal} {v : AstStmt}, read s = some (v, r) →
    ∃ t : StmtTree, t.Derived ∧ t.Respects (beforeElse r) ∧ s = t.tokens ++ r ∧ t.ast = v
  complete : ∀ {t : StmtTree} {r : List Terminal}, t.Derived → t.Respects (beforeElse r) →
    t.tokens.length < n → Follows r → read (t.tokens ++ r) = some (t.ast, r)

/-- The statements that no ELSE follows. -/
def Closed (ts : List Terminal) (v : AstStmt) : Prop :=
  ∃ t : StmtTree, t.Derived ∧ t.Respects false ∧ t.tokens = ts ∧ t.ast = v

theorem respects_false : ∀ (t : StmtTree) {elseNext : Bool}, t.Respects elseNext → t.Respects false
  | .ifThen _ thenn, _, respects => ⟨rfl, respects_false thenn respects.2⟩
  | .ifElse _ _ elze, _, respects => ⟨respects.1, respects_false elze respects.2⟩
  | .whileDo _ body, _, respects => respects_false body respects
  | .forTo _ _ _ body, _, respects => respects_false body respects
  | .compound .., _, respects => respects
  | .assign .., _, _ => trivial
  | .proc .., _, _ => trivial
  | .empty, _, _ => trivial

theorem StatementReader.exact {n : Nat} {read : Reader Terminal AstStmt}
    (reader : StatementReader n read) :
    Exact n read Closed fun r => Follows r ∧ beforeElse r = false where
  sound taken := by
    obtain ⟨t, derived, respects, rfl, same⟩ := reader.sound taken
    exact ⟨t.tokens, rfl, t, derived, respects_false t respects, rfl, same⟩
  complete := by
    rintro ts r v ⟨t, derived, respects, rfl, rfl⟩ short ⟨follows, noElse⟩
    exact reader.complete derived (noElse.symm ▸ respects) short follows

theorem many_iff {vs : List Terminal} {ys : List AstStmt} :
    Many (fun ts v => ∃ us, ts = .char ';' :: us ∧ Closed us v) vs ys ↔
      ∃ others : List StmtTree, (∀ t ∈ others, t.Derived) ∧ AllRespect others ∧
        tokensAfter others = vs ∧ astAll others = ys := by
  constructor
  · intro list
    induction list using Many.frontInduction with
    | none => exact ⟨[], by simp, trivial, rfl, rfl⟩
    | cons _ _ _ _ first _ ih =>
      obtain ⟨us, rfl, t, derived, respects, rfl, rfl⟩ := first
      obtain ⟨others, all, allRespect, rfl, rfl⟩ := ih
      refine ⟨t :: others, ?_, ⟨respects, allRespect⟩, rfl, rfl⟩
      intro u member
      rcases List.mem_cons.mp member with rfl | member
      · exact derived
      · exact all u member
  · rintro ⟨others, all, allRespect, rfl, rfl⟩
    induction others with
    | nil => exact .none
    | cons t others ih =>
      have rest := ih (fun u member => all u (List.mem_cons_of_mem t member)) allRespect.2
      exact .cons ⟨_, rfl, t, all t List.mem_cons_self, allRespect.1, rfl, rfl⟩ rest

/-- A compound statement without its begin. -/
def BlockText (ts : List Terminal) (v : AstStmt) : Prop :=
  ∃ t : StmtTree, t.Derived ∧ t.Respects false ∧ t.tokens = .TBEGIN :: ts ∧ t.ast = v

theorem not_else_of_semicolon {r : List Terminal} (first : .char ';' ∈ r.head?) :
    Follows r ∧ beforeElse r = false := by
  obtain ⟨s, rfl⟩ := List.head?_eq_some_iff.mp first
  exact ⟨.cons rfl, rfl⟩

theorem clear_of_end {kind : Terminal → Bool} (other : kind .END = false) (r : List Terminal) :
    clear kind (.END :: r) = true := by
  rw [clear_cons, other]
  rfl

theorem exact_block {n : Nat} {read : Reader Terminal AstStmt} (reader : StatementReader n read) :
    Exact n (readBlock read n) BlockText Anything := by
  have list := reader.exact.separated (.char ';') fun r => not_else_of_semicolon
  constructor
  · intro s r v taken
    unfold readBlock at taken
    split at taken
    · cases taken
      exact ⟨[.END], rfl, .empty, .empty, trivial, rfl, rfl⟩
    · obtain ⟨body, s', members, rest⟩ := bind_eq_some.mp taken
      obtain ⟨_, s'', close, finish⟩ := bind_eq_some.mp rest
      obtain ⟨rfl, rfl⟩ := pure_eq_some.mp finish
      obtain rfl := token_eq_some.mp close
      obtain ⟨ts, rfl, inside⟩ := list.sound members
      obtain ⟨us, vs, x, xs, rfl, rfl, ⟨first, derived, respects, rfl, rfl⟩, more⟩ :=
        separated_iff.mp inside
      obtain ⟨others, all, allRespect, rfl, rfl⟩ := many_iff.mp more
      refine ⟨first.tokens ++ (tokensAfter others ++ [.END]), by simp, .compound first others,
        .compound derived all, ⟨respects, allRespect⟩, rfl, rfl⟩
  · rintro ts r v ⟨t, derived, respects, same, rfl⟩ short -
    have starts := derived.opens_of_append (same.symm.trans (List.append_nil _).symm)
    cases derived with
    | empty =>
      obtain rfl := List.tail_eq_of_cons_eq same
      rfl
    | @compound first others one more =>
      obtain rfl := List.tail_eq_of_cons_eq same
      have inside : SeparatedBy (.char ';') Closed (first.tokens ++ tokensAfter others)
          (first.ast :: astAll others) :=
        separated_iff.mpr ⟨_, _, _, _, rfl, rfl, ⟨first, one, respects.1, rfl, rfl⟩,
          many_iff.mpr ⟨others, more, respects.2, rfl, rfl⟩⟩
      have members := list.complete inside (r := .END :: r)
        (by simp only [List.length_append, List.length_cons] at short ⊢; omega)
        ⟨clear_of_end (by decide) r, .cons rfl, rfl⟩
      have here : first.tokens ++ (tokensAfter others ++ [.END]) ++ r =
          first.tokens ++ tokensAfter others ++ .END :: r := by simp
      rw [here]
      unfold readBlock
      split
      · next same =>
        rw [List.append_assoc] at same
        exact absurd same.symm one.tokens_ne_end
      · rw [bind_of_some members, bind_of_some (token_cons ..)]
        rfl
    | _ => cases starts

theorem sound_readAfterPath {s s' r : List Terminal} {p : AstPath} {v : AstStmt}
    (path : readPath astActions s = some (p, s')) (taken : readAfterPath p s' = some (v, r)) :
    ∃ t : StmtTree, t.Derived ∧ (∀ b, t.Respects b) ∧ s = t.tokens ++ r ∧ t.ast = v := by
  obtain ⟨w, read, picked⟩ := Task.reader_eq_some.mp path
  cases w <;> cases picked
  obtain ⟨ts, rfl, derived⟩ := read.derives
  have written := path_derives_iff.mp derived
  unfold readAfterPath at taken
  split at taken
  · obtain ⟨args, s'', list, rest⟩ := bind_eq_some.mp taken
    obtain ⟨_, s₃, close, finish⟩ := bind_eq_some.mp rest
    obtain ⟨rfl, rfl⟩ := pure_eq_some.mp finish
    obtain rfl := token_eq_some.mp close
    obtain ⟨w, read, picked⟩ := Task.reader_eq_some.mp list
    cases w <;> cases picked
    obtain ⟨us, rfl, members⟩ := read.derives
    obtain ⟨ws, inside, rfl⟩ := arguments_of_derives members
    exact ⟨_, .procCall written inside, fun _ => trivial, by simp [tokens], rfl⟩
  · next notCall =>
    obtain ⟨lvalue, s'', suffix, rest⟩ := bind_eq_some.mp taken
    obtain ⟨w, read, picked⟩ := Task.reader_eq_some.mp suffix
    -- without a call the suffix makes an lvalue
    have target : ∃ us tree, ts ++ s' = us ++ s'' ∧
        Derives writtenActions .lvalue us (.expr tree) ∧ tree.erase = lvalue ∧
          ∀ q, lvalue = .path q → us = ts := by
      cases read with
      | suffixCall => exact absurd rfl (notCall _)
      | suffixIndex index =>
        cases picked
        obtain ⟨us, rfl, inside⟩ := index.derives
        obtain ⟨w, phrase, rfl⟩ := phrase_of_derives inside
        exact ⟨_, _, by simp, .lvalueIndex written phrase, rfl, fun q same => by cases same⟩
      | suffixDeref =>
        cases picked
        exact ⟨_, _, by simp, .lvalueDeref written, rfl, fun q same => by cases same⟩
      | suffixEnd =>
        cases picked
        exact ⟨_, _, rfl, .lvaluePath written, rfl, fun _ _ => rfl⟩
    obtain ⟨us, tree, same, lvalue_, rfl, whole⟩ := target
    rw [same]
    split at rest
    · obtain ⟨rvalue, s₃, source, finish⟩ := bind_eq_some.mp rest
      obtain ⟨rfl, rfl⟩ := pure_eq_some.mp finish
      obtain ⟨c, rfl, phrase, rfl⟩ := phrase_of_read source
      exact ⟨.assign ⟨us, tree⟩ c, .assign lvalue_ phrase, fun _ => trivial, by simp [tokens], rfl⟩
    · split at rest
      · next q here =>
        cases rest
        obtain rfl := whole q here
        exact ⟨.proc us p [], .procName written, fun _ => trivial, rfl, rfl⟩
      · cases rest

theorem readPath_append {ts r : List Terminal} {p : AstPath}
    (derived : Derives writtenActions .path ts (.path p)) (ends : Clear (· == .char '.') r) :
    readPath astActions (ts ++ r) = some (p, r) :=
  Task.reader_eq_some.mpr ⟨.path p, (path_derives_iff.mpr derived).readAs r _ _ (.fieldsEnd ends), rfl⟩

theorem complete_readAfterPath {t : StmtTree} {r : List Terminal} (derived : t.Derived)
    (plain : ∃ u, isOperand u = true ∧ t.opens u = true) (follows : Follows r) :
    ∃ p s, readPath astActions (t.tokens ++ r) = some (p, s) ∧
      readAfterPath p s = some (t.ast, r) := by
  obtain ⟨u, operand, starts⟩ := plain
  cases derived with
  | @assign lvalue value target source =>
    obtain ⟨text, tree⟩ := lvalue
    dsimp only at target
    have right := readExpression_append source follows.clear
    -- after the lvalue comes the assignment
    have assigned : ∀ {q : AstPath} {s : List Terminal} {e : AstExpr},
        Reads astActions (.suffix q) s (.expr e) (.ASSIGNOP :: (value.text ++ r)) →
        (∀ s', s ≠ .char '(' :: s') →
        readAfterPath q s = some (.assign e value.tree.erase, r) := by
      intro q s e suffix notCall
      have lvalue : readSuffix astActions q s = some (e, .ASSIGNOP :: (value.text ++ r)) :=
        Task.reader_eq_some.mpr ⟨_, suffix, rfl⟩
      unfold readAfterPath
      split
      · exact absurd rfl (notCall _)
      · rw [bind_of_some lvalue]
        exact bind_of_some right
    have next : ∀ s, (.assign ⟨text, tree⟩ value : StmtTree).tokens ++ s =
        text ++ .ASSIGNOP :: (value.text ++ s) := fun s => by simp [tokens]
    rw [next]
    cases target with
    | lvaluePath path =>
      exact ⟨_, _, readPath_append path (.of_not rfl),
        assigned (.suffixEnd (.of_not rfl)) fun s' same => by cases same⟩
    | lvalueIndex path index =>
      have inside := (derives_of_phrase index).readAs (.char ']' :: .ASSIGNOP :: (value.text ++ r))
        (.of_not rfl)
      rw [List.append_assoc, List.cons_append, List.append_assoc]
      exact ⟨_, _, readPath_append path (.of_not rfl),
        assigned (.suffixIndex inside) fun s' same => by cases same⟩
    | lvalueDeref path =>
      rw [List.append_assoc]
      exact ⟨_, _, readPath_append path (.of_not rfl),
        assigned .suffixDeref fun s' same => by cases same⟩
  | @procName ts p path =>
    have suffix := follows.clear.suffix
    have lvalue : readSuffix astActions p r = some (.path p, r) :=
      Task.reader_eq_some.mpr ⟨_, .suffixEnd suffix, rfl⟩
    refine ⟨p, r, readPath_append path (suffix.mono fun t => isSuffix_of_dot), ?_⟩
    unfold readAfterPath
    split
    · cases suffix.not
    · rw [bind_of_some lvalue]
      split
      · exact (follows.assignop rfl).elim
      · rfl
  | @procCall ts us p ws path args =>
    have list := (derives_of_arguments args).readAs (.char ')' :: r) _ _ ⟨_, _, rfl, rfl⟩
      (.membersEnd (.of_not rfl))
    have arguments : readArguments astActions (us ++ .char ')' :: r) =
        some (Written.eraseAll ws, .char ')' :: r) := Task.reader_eq_some.mpr ⟨_, list, rfl⟩
    refine ⟨p, .char '(' :: (us ++ .char ')' :: r), ?_, ?_⟩
    · have next : tokens (.proc (ts ++ .char '(' :: (us ++ [.char ')'])) p ws) ++ r =
          ts ++ .char '(' :: (us ++ .char ')' :: r) := by simp [tokens]
      rw [next]
      exact readPath_append path (.of_not rfl)
    · rw [readAfterPath, bind_of_some arguments, bind_of_some (token_cons ..)]
      rfl
  | _ =>
    simp only [opens, beq_iff_eq] at starts
    rw [starts] at operand
    cases operand

theorem beforeElse_iff {r : List Terminal} : beforeElse r = true ↔ ∃ s, r = .ELSE :: s := by
  rw [beforeElse, beq_iff_eq, List.head?_eq_some_iff]

theorem readElse_of_not {read : Reader Terminal AstStmt} {r : List Terminal}
    (noElse : beforeElse r = false) : readElse read r = some (.null, r) := by
  unfold readElse
  split
  · cases noElse
  · rfl

theorem readStatement_operand {n : Nat} {u : Terminal} {s : List Terminal}
    (operand : isOperand u = true) : readStatement (n + 1) (u :: s) =
      (do let p ← readPath astActions; readAfterPath p : Reader Terminal AstStmt) (u :: s) := by
  -- what starts like an operand is no compound statement, conditional or loop
  unfold readStatement
  split
  · next same =>
    cases (List.cons.inj same).1
    cases operand
  · next same =>
    cases (List.cons.inj same).1
    cases operand
  · next same =>
    cases (List.cons.inj same).1
    cases operand
  · next same =>
    cases (List.cons.inj same).1
    cases operand
  · rfl

theorem complete_operand {n : Nat} {t : StmtTree} {r : List Terminal} (derived : t.Derived)
    (plain : t.opens = isOperand) (follows : Follows r) :
    readStatement (n + 1) (t.tokens ++ r) = some (t.ast, r) := by
  obtain ⟨v, vs, same, starts⟩ := derived.begins
  rw [plain] at starts
  obtain ⟨p, s, path, after⟩ := complete_readAfterPath derived ⟨v, starts, plain ▸ starts⟩ follows
  rw [same] at path ⊢
  exact (readStatement_operand starts).trans ((bind_of_some path).trans after)

theorem sound_readStatement {n : Nat} (reader : StatementReader n (readStatement n))
    {s r : List Terminal} {v : AstStmt} (taken : readStatement (n + 1) s = some (v, r)) :
    ∃ t : StmtTree, t.Derived ∧ t.Respects (beforeElse r) ∧ s = t.tokens ++ r ∧ t.ast = v := by
  unfold readStatement at taken
  split at taken
  · obtain ⟨ts, rfl, t, derived, respects, same, rfl⟩ := (exact_block reader).sound taken
    have starts := derived.opens_of_append (same.symm.trans (List.append_nil _).symm)
    have block : ∀ b, t.Respects b := by
      intro b
      cases derived with
      | empty => trivial
      | compound => exact respects
      | _ => cases starts
    exact ⟨t, derived, block _, by rw [same]; rfl, rfl⟩
  · obtain ⟨cond, s₁, test, rest⟩ := bind_eq_some.mp taken
    obtain ⟨_, s₂, then_, rest⟩ := bind_eq_some.mp rest
    obtain ⟨thenn, s₃, yes, rest⟩ := bind_eq_some.mp rest
    obtain ⟨elze, s₄, no, finish⟩ := bind_eq_some.mp rest
    obtain ⟨rfl, rfl⟩ := pure_eq_some.mp finish
    obtain rfl := token_eq_some.mp then_
    obtain ⟨c, rfl, phrase, rfl⟩ := phrase_of_read test
    obtain ⟨t, derived, respects, rfl, rfl⟩ := reader.sound yes
    unfold readElse at no
    split at no
    · obtain ⟨e, other, respects', rfl, rfl⟩ := reader.sound no
      exact ⟨.ifElse c t e, .ifElse phrase derived other, ⟨respects, respects'⟩,
        by simp [tokens], rfl⟩
    · next noElse =>
      cases no
      have closed : beforeElse s₃ = false := by
        rw [Bool.eq_false_iff]
        intro next
        obtain ⟨s', rfl⟩ := beforeElse_iff.mp next
        exact noElse s' rfl
      exact ⟨.ifThen c t, .ifThen phrase derived, ⟨closed, respects⟩, by simp [tokens], rfl⟩
  · obtain ⟨cond, s₁, test, rest⟩ := bind_eq_some.mp taken
    obtain ⟨_, s₂, do_, rest⟩ := bind_eq_some.mp rest
    obtain ⟨body, s₃, loop, finish⟩ := bind_eq_some.mp rest
    obtain ⟨rfl, rfl⟩ := pure_eq_some.mp finish
    obtain rfl := token_eq_some.mp do_
    obtain ⟨c, rfl, phrase, rfl⟩ := phrase_of_read test
    obtain ⟨t, derived, respects, rfl, rfl⟩ := reader.sound loop
    exact ⟨.whileDo c t, .whileDo phrase derived, respects, by simp [tokens], rfl⟩
  · obtain ⟨id, s₁, name, rest⟩ := bind_eq_some.mp taken
    obtain ⟨_, s₂, assign, rest⟩ := bind_eq_some.mp rest
    obtain ⟨start, s₃, first, rest⟩ := bind_eq_some.mp rest
    obtain ⟨_, s₄, to_, rest⟩ := bind_eq_some.mp rest
    obtain ⟨finish, s₅, last, rest⟩ := bind_eq_some.mp rest
    obtain ⟨_, s₆, do_, rest⟩ := bind_eq_some.mp rest
    obtain ⟨body, s₇, loop, finish⟩ := bind_eq_some.mp rest
    obtain ⟨rfl, rfl⟩ := pure_eq_some.mp finish
    obtain ⟨u, rfl, here⟩ := one_eq_some.mp name
    obtain rfl := token_eq_some.mp assign
    obtain ⟨c, rfl, phrase, rfl⟩ := phrase_of_read first
    obtain rfl := token_eq_some.mp to_
    obtain ⟨d, rfl, phrase', rfl⟩ := phrase_of_read last
    obtain rfl := token_eq_some.mp do_
    obtain ⟨t, derived, respects, rfl, rfl⟩ := reader.sound loop
    obtain rfl : u = .ID id := identifierOf_eq_some.mp here
    exact ⟨.forTo id c d t, .forTo phrase phrase' derived, respects, by simp [tokens], rfl⟩
  · obtain ⟨p, s', path, after⟩ := bind_eq_some.mp taken
    obtain ⟨t, derived, respects, rfl, rfl⟩ := sound_readAfterPath path after
    exact ⟨t, derived, respects _, rfl, rfl⟩

theorem complete_readStatement {n : Nat} (reader : StatementReader n (readStatement n))
    {t : StmtTree} {r : List Terminal} (derived : t.Derived) (respects : t.Respects (beforeElse r))
    (short : t.tokens.length < n + 1) (follows : Follows r) :
    readStatement (n + 1) (t.tokens ++ r) = some (t.ast, r) := by
  cases derived with
  | assign target source => exact complete_operand (.assign target source) rfl follows
  | procName path => exact complete_operand (.procName path) rfl follows
  | procCall path args => exact complete_operand (.procCall path args) rfl follows
  | empty => rfl
  | @compound first others one more =>
    exact (exact_block reader).complete ⟨_, .compound one more, respects, rfl, rfl⟩
      (Nat.lt_of_succ_lt_succ short) trivial
  | @ifThen cond thenn test yes =>
    have next : tokens (.ifThen cond thenn) ++ r =
        .IF :: (cond.text ++ .THEN :: (thenn.tokens ++ r)) := by simp [tokens]
    simp only [tokens, List.length_cons, List.length_append] at short
    have branch := reader.complete yes respects.2 (by omega) follows
    rw [next, readStatement, bind_of_some (readExpression_append test (.of_not rfl)),
      bind_of_some (token_cons ..), bind_of_some branch]
    exact bind_of_some (readElse_of_not respects.1)
  | @ifElse cond thenn elze test yes no =>
    have next : tokens (.ifElse cond thenn elze) ++ r =
        .IF :: (cond.text ++ .THEN :: (thenn.tokens ++ .ELSE :: (elze.tokens ++ r))) := by
      simp [tokens]
    simp only [tokens, List.length_cons, List.length_append] at short
    have branch := reader.complete yes (r := .ELSE :: (elze.tokens ++ r)) respects.1 (by omega)
      (.cons rfl)
    have branch' := reader.complete no respects.2 (by omega) follows
    rw [next, readStatement, bind_of_some (readExpression_append test (.of_not rfl)),
      bind_of_some (token_cons ..), bind_of_some branch]
    exact bind_of_some branch'
  | @whileDo cond body test loop =>
    have next : tokens (.whileDo cond body) ++ r =
        .WHILE :: (cond.text ++ .DO :: (body.tokens ++ r)) := by simp [tokens]
    simp only [tokens, List.length_cons, List.length_append] at short
    have inside := reader.complete loop respects (by omega) follows
    rw [next, readStatement, bind_of_some (readExpression_append test (.of_not rfl)),
      bind_of_some (token_cons ..), bind_of_some inside]
    rfl
  | @forTo id start finish body first last loop =>
    have next : tokens (.forTo id start finish body) ++ r = .FOR :: .ID id :: .ASSIGNOP ::
        (start.text ++ .TO :: (finish.text ++ .DO :: (body.tokens ++ r))) := by simp [tokens]
    simp only [tokens, List.length_cons, List.length_append] at short
    have inside := reader.complete loop respects (by omega) follows
    rw [next, readStatement, bind_of_some (one_eq_some.mpr ⟨_, rfl, identifierOf_eq_some.mpr rfl⟩),
      bind_of_some (token_cons ..), bind_of_some (readExpression_append first (.of_not rfl)),
      bind_of_some (token_cons ..), bind_of_some (readExpression_append last (.of_not rfl)),
      bind_of_some (token_cons ..), bind_of_some inside]
    rfl

-- Every statement is read up to its end and no other one is. The ELSE of an IF is taken when it
-- is there, so a branch without ELSE has none after it.
theorem statementReader (n : Nat) : StatementReader n (readStatement n) := by
  induction n with
  | zero =>
    constructor
    · intro s r v taken
      cases taken
    · intro t r _ _ short
      exact absurd short (Nat.not_lt_zero _)
  | succ n ih => exact ⟨sound_readStatement ih, complete_readStatement ih⟩

end Dragon
