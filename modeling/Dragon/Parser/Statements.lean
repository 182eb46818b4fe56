import Dragon.Parser.Shape

/-! The productions of parser.y for statements, and the ELSE they leave open (rule 3.3).

Bison gives ELSE a higher precedence than THEN, so an IF without ELSE is never
reduced before an ELSE. A derivation is a tree; the ones that respect this are
the ones the parser builds.
-/

set_option autoImplicit false

namespace Dragon

/-! ## Derivations -/

/-- The tokens of an expression, with the tree built from them. -/
structure Phrase where
  text : List Terminal
  tree : Written

/-- A derivation of a statement, one constructor for each production. -/
inductive StmtTree where
  | assign (lvalue value : Phrase)
  | proc (text : List Terminal) (name : AstPath) (args : List Written)
  | empty
  | compound (first : StmtTree) (others : List StmtTree)
  | ifThen (cond : Phrase) (thenn : StmtTree)
  | ifElse (cond : Phrase) (thenn elze : StmtTree)
  | whileDo (cond : Phrase) (body : StmtTree)
  | forTo (id : Name) (start finish : Phrase) (body : StmtTree)

namespace StmtTree

mutual

def tokens : StmtTree → List Terminal
  | assign lvalue value => lvalue.text ++ .ASSIGNOP :: value.text
  | proc text _ _ => text
  | empty => [.TBEGIN, .END]
  | compound first others => .TBEGIN :: (first.tokens ++ (tokensAfter others ++ [.END]))
  | ifThen cond thenn => .IF :: (cond.text ++ .THEN :: thenn.tokens)
  | ifElse cond thenn elze => .IF :: (cond.text ++ .THEN :: (thenn.tokens ++ .ELSE :: elze.tokens))
  | whileDo cond body => .WHILE :: (cond.text ++ .DO :: body.tokens)
  | forTo id start finish body =>
      .FOR :: .ID id :: .ASSIGNOP :: (start.text ++ .TO :: (finish.text ++ .DO :: body.tokens))

def tokensAfter : List StmtTree → List Terminal
  | [] => []
  | s :: others => .char ';' :: (s.tokens ++ tokensAfter others)

end

mutual

def ast : StmtTree → AstStmt
  | assign lvalue value => .assign lvalue.tree.erase value.tree.erase
  | proc _ name args => .proc name (Written.eraseAll args)
  | empty => .null
  | compound first others => .stmts (first.ast :: astAll others)
  | ifThen cond thenn => .ite cond.tree.erase thenn.ast .null
  | ifElse cond thenn elze => .ite cond.tree.erase thenn.ast elze.ast
  | whileDo cond body => .wdo cond.tree.erase body.ast
  | forTo id start finish body => .foor id start.tree.erase finish.tree.erase body.ast

def astAll : List StmtTree → List AstStmt
  | [] => []
  | s :: others => s.ast :: astAll others

end

/-- The leaves of the tree are derivations of their symbols. -/
inductive Derived : StmtTree → Prop where
  | assign {lvalue value : Phrase}
      (target : Derives writtenActions .lvalue lvalue.text (.expr lvalue.tree))
      (source : Derives writtenActions .expression value.text (.expr value.tree)) :
      Derived (assign lvalue value)
  | procName {ts : List Terminal} {p : AstPath} (path : Derives writtenActions .path ts (.path p)) :
      Derived (proc ts p [])
  | procCall {ts us : List Terminal} {p : AstPath} {ws : List Written}
      (path : Derives writtenActions .path ts (.path p))
      (args : Derives writtenActions .expressionList us (.list ws)) :
      Derived (proc (ts ++ .char '(' :: (us ++ [.char ')'])) p ws)
  | empty : Derived empty
  | compound {first : StmtTree} {others : List StmtTree} (one : Derived first)
      (more : ∀ s ∈ others, Derived s) : Derived (compound first others)
  | ifThen {cond : Phrase} {thenn : StmtTree}
      (test : Derives writtenActions .expression cond.text (.expr cond.tree)) (yes : Derived thenn) :
      Derived (ifThen cond thenn)
  | ifElse {cond : Phrase} {thenn elze : StmtTree}
      (test : Derives writtenActions .expression cond.text (.expr cond.tree)) (yes : Derived thenn)
      (no : Derived elze) : Derived (ifElse cond thenn elze)
  | whileDo {cond : Phrase} {body : StmtTree}
      (test : Derives writtenActions .expression cond.text (.expr cond.tree)) (loop : Derived body) :
      Derived (whileDo cond body)
  | forTo {id : Name} {start finish : Phrase} {body : StmtTree}
      (first : Derives writtenActions .expression start.text (.expr start.tree))
      (last : Derives writtenActions .expression finish.text (.expr finish.tree))
      (loop : Derived body) : Derived (forTo id start finish body)

mutual

/-- An IF without ELSE is not reduced before an ELSE; the flag says whether the tree is followed
by one. -/
def Respects : Bool → StmtTree → Prop
  | elseNext, ifThen _ thenn => elseNext = false ∧ thenn.Respects elseNext
  | elseNext, ifElse _ thenn elze => thenn.Respects true ∧ elze.Respects elseNext
  | elseNext, whileDo _ body | elseNext, forTo _ _ _ body => body.Respects elseNext
  | _, compound first others => first.Respects false ∧ AllRespect others
  | _, assign .. | _, proc .. | _, empty => True

/-- The statements of a list are followed by a semicolon or END. -/
def AllRespect : List StmtTree → Prop
  | [] => True
  | s :: others => s.Respects false ∧ AllRespect others

end

mutual

/-- The positions of THEN and ELSE of the conditionals that have both, by the position the tree
starts at, in the order of the ELSE. -/
def attached : Nat → StmtTree → List (Nat × Nat)
  | n, ifThen cond thenn => thenn.attached (n + 1 + cond.text.length + 1)
  | n, ifElse cond thenn elze =>
      let m := n + 1 + cond.text.length
      let k := m + 1 + thenn.tokens.length
      thenn.attached (m + 1) ++ (m, k) :: elze.attached (k + 1)
  | n, whileDo cond body => body.attached (n + 1 + cond.text.length + 1)
  | n, forTo _ start finish body =>
      body.attached (n + 3 + start.text.length + 1 + finish.text.length + 1)
  | n, compound first others => first.attached (n + 1) ++ attachedAfter (n + 1 + first.tokens.length) others
  | _, assign .. | _, proc .. | _, empty => []

def attachedAfter : Nat → List StmtTree → List (Nat × Nat)
  | _, [] => []
  | n, s :: others => s.attached (n + 1) ++ attachedAfter (n + 1 + s.tokens.length) others

end

end StmtTree

/-- For each ELSE of some tokens, in order, the nearest THEN before it in its begin..end block that
has no ELSE of its own yet. The arguments are the position, the THEN without ELSE of the block, the
nearest first, and those of the blocks around it. -/
def closestThen : Nat → List Nat → List (List Nat) → List Terminal → List (Option Nat × Nat)
  | _, _, _, [] => []
  | n, block, outer, t :: ts =>
      match t with
      | .THEN => closestThen (n + 1) (n :: block) outer ts
      | .ELSE => (block.head?, n) :: closestThen (n + 1) block.tail outer ts
      | .TBEGIN => closestThen (n + 1) [] (block :: outer) ts
      | .END => closestThen (n + 1) (outer.headD []) outer.tail ts
      | _ => closestThen (n + 1) block outer ts

namespace StmtTree

/-! ## One derivation respects the precedence -/

theorem allRespect_iff {others : List StmtTree} :
    AllRespect others ↔ ∀ s ∈ others, s.Respects false := by
  induction others with
  | nil => simp [AllRespect]
  | cons s others ih => simp [AllRespect, ih]

-- A tree that may not be followed by ELSE takes one in: its last open IF does.
theorem Derived.closeLast {t : StmtTree} (derived : t.Derived) (respects : t.Respects false) :
    t.Respects true ∨ ∀ e : StmtTree, e.Derived → e.Respects false →
      ∃ t' : StmtTree, t'.Derived ∧ t'.Respects false ∧ t'.tokens = t.tokens ++ .ELSE :: e.tokens := by
  induction derived with
  | assign => exact .inl trivial
  | procName => exact .inl trivial
  | procCall => exact .inl trivial
  | empty => exact .inl trivial
  | compound => exact .inl respects
  | @ifThen cond thenn test yes ih =>
    right
    intro e other otherRespects
    rcases ih respects.2 with closed | opened
    · refine ⟨.ifElse cond thenn e, .ifElse test yes other, ⟨closed, otherRespects⟩, ?_⟩
      simp only [tokens, List.cons_append, List.append_assoc]
    · obtain ⟨t', derived', respects', same⟩ := opened e other otherRespects
      refine ⟨.ifThen cond t', .ifThen test derived', ⟨rfl, respects'⟩, ?_⟩
      simp only [tokens, same, List.cons_append, List.append_assoc]
  | @ifElse cond thenn elze test yes no _ ih =>
    rcases ih respects.2 with closed | opened
    · exact .inl ⟨respects.1, closed⟩
    · right
      intro e other otherRespects
      obtain ⟨t', derived', respects', same⟩ := opened e other otherRespects
      refine ⟨.ifElse cond thenn t', .ifElse test yes derived', ⟨respects.1, respects'⟩, ?_⟩
      simp only [tokens, same, List.cons_append, List.append_assoc]
  | @whileDo cond body test loop ih =>
    rcases ih respects with closed | opened
    · exact .inl closed
    · right
      intro e other otherRespects
      obtain ⟨t', derived', respects', same⟩ := opened e other otherRespects
      refine ⟨.whileDo cond t', .whileDo test derived', respects', ?_⟩
      simp only [tokens, same, List.cons_append, List.append_assoc]
  | @forTo id start finish body first last loop ih =>
    rcases ih respects with closed | opened
    · exact .inl closed
    · right
      intro e other otherRespects
      obtain ⟨t', derived', respects', same⟩ := opened e other otherRespects
      refine ⟨.forTo id start finish t', .forTo first last derived', respects', ?_⟩
      simp only [tokens, same, List.cons_append, List.append_assoc]

theorem exists_others {others : List StmtTree}
    (each : ∀ s ∈ others, ∃ s' : StmtTree, s'.Derived ∧ s'.tokens = s.tokens ∧ s'.Respects false) :
    ∃ others', (∀ s ∈ others', Derived s) ∧ tokensAfter others' = tokensAfter others ∧
      AllRespect others' := by
  induction others with
  | nil => exact ⟨[], by simp, rfl, trivial⟩
  | cons s others ih =>
    obtain ⟨s', derived, same, respects⟩ := each s List.mem_cons_self
    obtain ⟨others', all, sames, allRespects⟩ := ih fun r member => each r (List.mem_cons_of_mem s member)
    refine ⟨s' :: others', ?_, ?_, respects, allRespects⟩
    · intro r member
      rcases List.mem_cons.mp member with rfl | member
      · exact derived
      · exact all r member
    · rw [tokensAfter, tokensAfter, same, sames]

-- Whatever is derived has a derivation that respects the precedence.
theorem Derived.exists_respects {t : StmtTree} (derived : t.Derived) :
    ∃ t' : StmtTree, t'.Derived ∧ t'.tokens = t.tokens ∧ t'.Respects false := by
  induction derived with
  | assign target source => exact ⟨_, .assign target source, rfl, trivial⟩
  | procName path => exact ⟨_, .procName path, rfl, trivial⟩
  | procCall path args => exact ⟨_, .procCall path args, rfl, trivial⟩
  | empty => exact ⟨_, .empty, rfl, trivial⟩
  | compound _ _ ih₁ ih₂ =>
    obtain ⟨first', derived, same, respects⟩ := ih₁
    obtain ⟨others', all, sames, allRespect⟩ := exists_others ih₂
    refine ⟨.compound first' others', .compound derived all, ?_, respects, allRespect⟩
    rw [tokens, tokens, same, sames]
  | @ifThen cond _ test _ ih =>
    obtain ⟨thenn', derived, same, respects⟩ := ih
    refine ⟨.ifThen cond thenn', .ifThen test derived, ?_, rfl, respects⟩
    rw [tokens, tokens, same]
  | @ifElse cond thenn elze test _ _ ih₁ ih₂ =>
    obtain ⟨thenn', derived₁, same₁, respects₁⟩ := ih₁
    obtain ⟨elze', derived₂, same₂, respects₂⟩ := ih₂
    -- the ELSE goes to the last open IF of the first branch, if that has one
    rcases derived₁.closeLast respects₁ with closed | opened
    · refine ⟨.ifElse cond thenn' elze', .ifElse test derived₁ derived₂, ?_, closed, respects₂⟩
      rw [tokens, tokens, same₁, same₂]
    · obtain ⟨whole, derived, respects, same⟩ := opened elze' derived₂ respects₂
      refine ⟨.ifThen cond whole, .ifThen test derived, ?_, rfl, respects⟩
      rw [tokens, tokens, same, same₁, same₂]
  | @whileDo cond _ test _ ih =>
    obtain ⟨body', derived, same, respects⟩ := ih
    refine ⟨.whileDo cond body', .whileDo test derived, ?_, respects⟩
    rw [tokens, tokens, same]
  | @forTo id start finish _ first last _ ih =>
    obtain ⟨body', derived, same, respects⟩ := ih
    refine ⟨.forTo id start finish body', .forTo first last derived, ?_, respects⟩
    rw [tokens, tokens, same]

/-! ## No other derivation does -/

def isFollow : Terminal → Bool
  | .char ';' | .END | .ELSE => true
  | _ => false

def Follows (s : List Terminal) : Prop := ∀ t ∈ s.head?, isFollow t = true

theorem Follows.cons {t : Terminal} {s : List Terminal} (follow : isFollow t = true) :
    Follows (t :: s) := by
  intro u member
  rw [← Option.some.inj member]
  exact follow

theorem isOperator_of_isFollow {t : Terminal} (follow : isFollow t = true) : isOperator t = false := by
  unfold isFollow at follow
  split at follow <;> first | rfl | cases follow

theorem Follows.clear {s : List Terminal} (follows : Follows s) : Clear isOperator s :=
  fun t member => isOperator_of_isFollow (follows t member)

theorem Follows.assignop {s s' : List Terminal} (follows : Follows s) (same : s = .ASSIGNOP :: s') :
    False := by
  rw [same] at follows
  cases follows _ rfl

def beforeElse (s : List Terminal) : Bool := s.head? == some .ELSE

/-- What a tree starts with. -/
def opens : StmtTree → Terminal → Bool
  | assign .. | proc .. => isOperand
  | empty | compound .. => (· == .TBEGIN)
  | ifThen .. | ifElse .. => (· == .IF)
  | whileDo .. => (· == .WHILE)
  | forTo .. => (· == .FOR)

theorem procName_factor {ts : List Terminal} {p : AstPath}
    (path : Derives writtenActions .path ts (.path p)) :
    Derives writtenActions .factor ts (.expr (.path p)) := .factorLvalue (.lvaluePath path)

theorem Derived.begins {t : StmtTree} (derived : t.Derived) : Begins t.opens t.tokens := by
  cases derived with
  | assign target => exact (target.begins (by decide)).append _
  | procName path => exact path.begins (by decide)
  | procCall path => exact (path.begins (by decide)).append _
  | _ => exact ⟨_, _, rfl, rfl⟩

theorem Derived.opens_of_append {t : StmtTree} (derived : t.Derived) {u : Terminal}
    {us s : List Terminal} (same : u :: us = t.tokens ++ s) : t.opens u = true := by
  obtain ⟨v, vs, start, opens⟩ := derived.begins
  rw [start] at same
  cases same
  exact opens

theorem Derived.tokens_ne_end {t : StmtTree} (derived : t.Derived) {s s' : List Terminal} :
    .END :: s ≠ t.tokens ++ s' := by
  intro same
  have first := derived.opens_of_append same
  cases derived <;> cases first

theorem Derived.opens_operand {t : StmtTree} (derived : t.Derived) {text rest s : List Terminal}
    (begins : Begins isOperand text) (same : text ++ rest = t.tokens ++ s) :
    ∃ u, isOperand u = true ∧ t.opens u = true := by
  obtain ⟨u, us, rfl, operand⟩ := begins
  exact ⟨u, operand, derived.opens_of_append same⟩

theorem Phrase.eq {c c' : Phrase} (value : Value.expr c.tree = Value.expr c'.tree)
    (text : c.text = c'.text) : c = c' := by
  cases c
  cases c'
  cases value
  cases text
  rfl

theorem Phrase.unique {c c' : Phrase} {s s' : List Terminal}
    (derived : Derives writtenActions .expression c.text (.expr c.tree))
    (derived' : Derives writtenActions .expression c'.text (.expr c'.tree))
    (same : c.text ++ s = c'.text ++ s') (clear : Clear isOperator s) (clear' : Clear isOperator s') :
    c = c' ∧ s = s' := by
  obtain ⟨value, text, rest⟩ := derived.expression_unique derived' same clear clear'
  exact ⟨Phrase.eq value text, rest⟩

theorem tokensAfter_follows (others : List StmtTree) (s : List Terminal) :
    Follows (tokensAfter others ++ .END :: s) ∧
      beforeElse (tokensAfter others ++ .END :: s) = false := by
  cases others with
  | nil => exact ⟨.cons rfl, rfl⟩
  | cons => exact ⟨.cons rfl, rfl⟩

/-- A statement is the only one at the start of its tokens. -/
def Unique (t : StmtTree) : Prop :=
  ∀ (t' : StmtTree) (s s' : List Terminal), t'.Derived → t.tokens ++ s = t'.tokens ++ s' →
    t.Respects (beforeElse s) → t'.Respects (beforeElse s') → Follows s → Follows s' →
      t = t' ∧ s = s'

theorem uniqueAfter {others : List StmtTree} (each : ∀ s ∈ others, Unique s) :
    ∀ (others' : List StmtTree) (s s' : List Terminal), (∀ t ∈ others', Derived t) →
      AllRespect others → AllRespect others' →
      tokensAfter others ++ .END :: s = tokensAfter others' ++ .END :: s' →
        others = others' ∧ s = s' := by
  induction others with
  | nil =>
    intro others' s s' _ _ _ same
    cases others' with
    | nil =>
      cases same
      exact ⟨rfl, rfl⟩
    | cons => cases same
  | cons t others ih =>
    intro others' s s' all respects respects' same
    cases others' with
    | nil => cases same
    | cons t' others' =>
      simp only [tokensAfter, List.cons_append, List.append_assoc, List.cons.injEq, true_and] at same
      obtain ⟨follows, noElse⟩ := tokensAfter_follows others s
      obtain ⟨follows', noElse'⟩ := tokensAfter_follows others' s'
      obtain ⟨rfl, rest⟩ := each t List.mem_cons_self t' _ _ (all t' List.mem_cons_self)
        same (noElse.symm ▸ respects.1) (noElse'.symm ▸ respects'.1) follows follows'
      obtain ⟨rfl, last⟩ := ih (fun r member => each r (List.mem_cons_of_mem t member)) others' s s'
        (fun r member => all r (List.mem_cons_of_mem t member)) respects.2 respects'.2 rest
      exact ⟨rfl, last⟩

theorem Derived.unique {t : StmtTree} (derived : t.Derived) : Unique t := by
  induction derived with
  | assign target source =>
    intro t' s s' derived' same respects respects' follows follows'
    simp only [tokens, List.append_assoc, List.cons_append] at same
    obtain ⟨u, operand, first⟩ := derived'.opens_operand (target.begins (by decide)) same
    cases derived' with
    | assign target' source' =>
      simp only [tokens, List.append_assoc, List.cons_append] at same
      obtain ⟨value, text, rest⟩ := (Derives.factorLvalue target).factor_unique
        (.factorLvalue target') same (.of_not rfl) (.of_not rfl)
      obtain ⟨rfl, last⟩ := Phrase.unique source source' (List.tail_eq_of_cons_eq rest)
        follows.clear follows'.clear
      exact ⟨by rw [Phrase.eq value text], last⟩
    | procName path =>
      obtain ⟨-, -, rest⟩ := (Derives.factorLvalue target).factor_unique (procName_factor path) same
        (.of_not rfl) follows'.clear.suffix
      exact (follows'.assignop rest.symm).elim
    | procCall path args =>
      obtain ⟨-, -, rest⟩ := (Derives.factorLvalue target).factor_unique (.factorCall path args) same
        (.of_not rfl) follows'.clear.suffix
      exact (follows'.assignop rest.symm).elim
    | _ =>
      simp only [opens, beq_iff_eq] at first
      rw [first] at operand
      cases operand
  | procName path =>
    intro t' s s' derived' same respects respects' follows follows'
    have factor := procName_factor path
    obtain ⟨u, operand, first⟩ := derived'.opens_operand (factor.begins (by decide)) same
    cases derived' with
    | assign target source =>
      simp only [tokens, List.append_assoc, List.cons_append] at same
      obtain ⟨-, -, rest⟩ := factor.factor_unique (.factorLvalue target) same follows.clear.suffix
        (.of_not rfl)
      exact (follows.assignop rest).elim
    | procName path' =>
      obtain ⟨value, text, last⟩ := factor.factor_unique (procName_factor path') same
        follows.clear.suffix follows'.clear.suffix
      cases value
      cases text
      exact ⟨rfl, last⟩
    | procCall path' args =>
      obtain ⟨value, -, -⟩ := factor.factor_unique (.factorCall path' args) same
        follows.clear.suffix follows'.clear.suffix
      cases value
    | _ =>
      simp only [opens, beq_iff_eq] at first
      rw [first] at operand
      cases operand
  | procCall path args =>
    intro t' s s' derived' same respects respects' follows follows'
    have factor := Derives.factorCall path args
    obtain ⟨u, operand, first⟩ := derived'.opens_operand (factor.begins (by decide)) same
    cases derived' with
    | assign target source =>
      simp only [tokens] at same
      obtain ⟨-, -, rest⟩ := factor.factor_unique (.factorLvalue target)
        (same.trans (List.append_assoc ..)) follows.clear.suffix (.of_not rfl)
      exact (follows.assignop rest).elim
    | procName path' =>
      obtain ⟨value, -, -⟩ := factor.factor_unique (procName_factor path') same
        follows.clear.suffix follows'.clear.suffix
      cases value
    | procCall path' args' =>
      obtain ⟨value, text, last⟩ := factor.factor_unique (.factorCall path' args') same
        follows.clear.suffix follows'.clear.suffix
      cases value
      refine ⟨?_, last⟩
      rw [text]
    | _ =>
      simp only [opens, beq_iff_eq] at first
      rw [first] at operand
      cases operand
  | empty =>
    intro t' s s' derived' same respects respects' follows follows'
    have first := derived'.opens_of_append same
    cases derived' with
    | empty =>
      cases same
      exact ⟨rfl, rfl⟩
    | compound one =>
      simp only [tokens, List.cons_append, List.append_assoc, List.cons.injEq, true_and,
        List.nil_append] at same
      exact (one.tokens_ne_end same).elim
    | _ => cases first
  | compound one more ih₁ ih₂ =>
    intro t' s s' derived' same respects respects' follows follows'
    have first := derived'.opens_of_append same
    cases derived' with
    | compound one' more' =>
      simp only [tokens, List.cons_append, List.append_assoc, List.cons.injEq, true_and,
        List.nil_append] at same
      obtain ⟨ends, noElse⟩ := tokensAfter_follows _ s
      obtain ⟨ends', noElse'⟩ := tokensAfter_follows _ s'
      obtain ⟨rfl, rest⟩ := ih₁ _ _ _ one' same (noElse.symm ▸ respects.1) (noElse'.symm ▸ respects'.1)
        ends ends'
      obtain ⟨rfl, last⟩ := uniqueAfter ih₂ _ s s' more' respects.2 respects'.2 rest
      exact ⟨rfl, last⟩
    | empty =>
      simp only [tokens, List.cons_append, List.append_assoc, List.cons.injEq, true_and,
        List.nil_append] at same
      exact (one.tokens_ne_end same.symm).elim
    | _ => cases first
  | ifThen test yes ih =>
    intro t' s s' derived' same respects respects' follows follows'
    have first := derived'.opens_of_append same
    cases derived' with
    | ifThen test' yes' =>
      simp only [tokens, List.cons_append, List.append_assoc, List.cons.injEq, true_and] at same
      obtain ⟨rfl, rest⟩ := Phrase.unique test test' same (.of_not rfl) (.of_not rfl)
      obtain ⟨rfl, last⟩ := ih _ s s' yes' (List.tail_eq_of_cons_eq rest) respects.2 respects'.2
        follows follows'
      exact ⟨rfl, last⟩
    | ifElse test' yes' no' =>
      simp only [tokens, List.cons_append, List.append_assoc, List.cons.injEq, true_and] at same
      obtain ⟨rfl, rest⟩ := Phrase.unique test test' same (.of_not rfl) (.of_not rfl)
      obtain ⟨-, last⟩ := ih _ s _ yes' (List.tail_eq_of_cons_eq rest) respects.2 respects'.1 follows
        (.cons rfl)
      -- the shorter one would be reduced before an ELSE
      have never := respects.1
      rw [last] at never
      cases never
    | _ => cases first
  | ifElse test yes no ih₁ ih₂ =>
    intro t' s s' derived' same respects respects' follows follows'
    have first := derived'.opens_of_append same
    cases derived' with
    | ifThen test' yes' =>
      simp only [tokens, List.cons_append, List.append_assoc, List.cons.injEq, true_and] at same
      obtain ⟨rfl, rest⟩ := Phrase.unique test test' same (.of_not rfl) (.of_not rfl)
      obtain ⟨-, last⟩ := ih₁ _ _ s' yes' (List.tail_eq_of_cons_eq rest) respects.1 respects'.2 (.cons rfl)
        follows'
      have never := respects'.1
      rw [← last] at never
      cases never
    | ifElse test' yes' no' =>
      simp only [tokens, List.cons_append, List.append_assoc, List.cons.injEq, true_and] at same
      obtain ⟨rfl, rest⟩ := Phrase.unique test test' same (.of_not rfl) (.of_not rfl)
      obtain ⟨rfl, rest₂⟩ := ih₁ _ _ _ yes' (List.tail_eq_of_cons_eq rest) respects.1 respects'.1
        (.cons rfl) (.cons rfl)
      obtain ⟨rfl, last⟩ := ih₂ _ s s' no' (List.tail_eq_of_cons_eq rest₂) respects.2 respects'.2
        follows follows'
      exact ⟨rfl, last⟩
    | _ => cases first
  | whileDo test loop ih =>
    intro t' s s' derived' same respects respects' follows follows'
    have first := derived'.opens_of_append same
    cases derived' with
    | whileDo test' loop' =>
      simp only [tokens, List.cons_append, List.append_assoc, List.cons.injEq, true_and] at same
      obtain ⟨rfl, rest⟩ := Phrase.unique test test' same (.of_not rfl) (.of_not rfl)
      obtain ⟨rfl, last⟩ := ih _ s s' loop' (List.tail_eq_of_cons_eq rest) respects respects' follows
        follows'
      exact ⟨rfl, last⟩
    | _ => cases first
  | forTo start finish loop ih =>
    intro t' s s' derived' same respects respects' follows follows'
    have first := derived'.opens_of_append same
    cases derived' with
    | forTo start' finish' loop' =>
      simp only [tokens, List.cons_append, List.append_assoc, List.cons.injEq, true_and,
        Terminal.ID.injEq] at same
      obtain ⟨rfl, same⟩ := same
      obtain ⟨rfl, rest⟩ := Phrase.unique start start' same (.of_not rfl) (.of_not rfl)
      obtain ⟨rfl, rest₂⟩ := Phrase.unique finish finish' (List.tail_eq_of_cons_eq rest)
        (.of_not rfl) (.of_not rfl)
      obtain ⟨rfl, last⟩ := ih _ s s' loop' (List.tail_eq_of_cons_eq rest₂) respects respects' follows
        follows'
      exact ⟨rfl, last⟩
    | _ => cases first

/-! ## The closest THEN -/

/-- A token that opens or closes a conditional or a block. -/
def isMark : Terminal → Bool
  | .THEN | .ELSE | .TBEGIN | .END => true
  | _ => false

theorem isMark_of_sign {t : Terminal} {op : Token} (operator : sign t = some op) :
    isMark t = false := by
  unfold sign at operator
  split at operator <;> first | rfl | cases operator

theorem isMark_of_relop {t : Terminal} {op : Token} (operator : relop t = some op) :
    isMark t = false := by
  unfold relop at operator
  split at operator <;> first | rfl | cases operator

theorem isMark_of_addop {t : Terminal} {op : Token} (operator : addop t = some op) :
    isMark t = false := by
  unfold addop at operator
  split at operator <;> first | rfl | cases operator

theorem isMark_of_mulop {t : Terminal} {op : Token} (operator : mulop t = some op) :
    isMark t = false := by
  unfold mulop at operator
  split at operator <;> first | rfl | cases operator

/-- No token is one of the marks. -/
def Unmarked (ts : List Terminal) : Prop := ∀ t ∈ ts, isMark t = false

theorem unmarked_nil : Unmarked [] := by
  intro t member
  cases member

theorem Unmarked.cons {t : Terminal} {ts : List Terminal} (head : isMark t = false)
    (tail : Unmarked ts) : Unmarked (t :: ts) := by
  intro u member
  rcases List.mem_cons.mp member with rfl | member
  · exact head
  · exact tail u member

theorem Unmarked.append {ts us : List Terminal} (first : Unmarked ts) (second : Unmarked us) :
    Unmarked (ts ++ us) := by
  intro u member
  rcases List.mem_append.mp member with member | member
  · exact first u member
  · exact second u member

theorem unmarked_of_derives {E : Type} {A : Actions E} {s : Symbol} {ts : List Terminal} {v : Value E}
    (derived : Derives A s ts v) : Unmarked ts := by
  have one : ∀ {t : Terminal}, isMark t = false → Unmarked [t] := fun here => .cons here unmarked_nil
  induction derived with
  | pathField _ ih => exact ih.append (.cons rfl (one rfl))
  | pathName => exact one rfl
  | lvaluePath _ ih => exact ih
  | lvalueIndex _ _ ih₁ ih₂ => exact ih₁.append (.cons rfl (ih₂.append (one rfl)))
  | lvalueDeref _ ih => exact ih.append (one rfl)
  | listOne _ ih => exact ih
  | listMore _ _ ih₁ ih₂ => exact ih₁.append (.cons rfl ih₂)
  | listEmpty => exact unmarked_nil
  | expressionSimple _ ih => exact ih
  | expressionRelop _ operator _ ih₁ ih₂ => exact ih₁.append (.cons (isMark_of_relop operator) ih₂)
  | simpleTerm _ ih => exact ih
  | simpleSign operator _ ih => exact .cons (isMark_of_sign operator) ih
  | simpleAddop _ operator _ ih₁ ih₂ => exact ih₁.append (.cons (isMark_of_addop operator) ih₂)
  | termFactor _ ih => exact ih
  | termMulop _ operator _ ih₁ ih₂ => exact ih₁.append (.cons (isMark_of_mulop operator) ih₂)
  | factorCall _ _ ih₁ ih₂ => exact ih₁.append (.cons rfl (ih₂.append (one rfl)))
  | factorNum => exact one rfl
  | factorParen _ ih => exact .cons rfl (ih.append (one rfl))
  | factorNot _ ih => exact .cons rfl ih
  | factorLvalue _ ih => exact ih
  | factorAddrof _ ih => exact .cons rfl ih

theorem closestThen_skip {t : Terminal} (plain : isMark t = false) (n : Nat) (block : List Nat)
    (outer : List (List Nat)) (rest : List Terminal) :
    closestThen n block outer (t :: rest) = closestThen (n + 1) block outer rest := by
  cases t <;> first | rfl | cases plain

theorem closestThen_unmarked {ts : List Terminal} (plain : Unmarked ts) (n : Nat) (block : List Nat)
    (outer : List (List Nat)) (rest : List Terminal) :
    closestThen n block outer (ts ++ rest) = closestThen (n + ts.length) block outer rest := by
  induction ts generalizing n with
  | nil => rfl
  | cons t ts ih =>
    rw [List.cons_append, closestThen_skip (plain t List.mem_cons_self),
      ih fun u member => plain u (List.mem_cons_of_mem t member), List.length_cons, Nat.add_assoc,
      Nat.add_comm 1]

/-- A THEN and the ELSE attached to it, as the scan reports them. -/
def found (p : Nat × Nat) : Option Nat × Nat := (some p.1, p.2)

/-- A scan over some tokens reports the pairs, and leaves some THEN pending in the block. -/
def Scans (n : Nat) (ts : List Terminal) (pairs : List (Nat × Nat)) (pending : List Nat) : Prop :=
  ∀ (block : List Nat) (outer : List (List Nat)) (rest : List Terminal),
    closestThen n block outer (ts ++ rest) =
      pairs.map found ++ closestThen (n + ts.length) (pending ++ block) outer rest

theorem scans_unmarked {ts : List Terminal} (plain : Unmarked ts) (n : Nat) : Scans n ts [] [] :=
  closestThen_unmarked plain n

theorem Scans.append {n : Nat} {ts us : List Terminal} {pairs pairs' : List (Nat × Nat)}
    {pending pending' : List Nat} (first : Scans n ts pairs pending)
    (second : Scans (n + ts.length) us pairs' pending') :
    Scans n (ts ++ us) (pairs ++ pairs') (pending' ++ pending) := by
  intro block outer rest
  rw [List.append_assoc, first, second, List.map_append, List.append_assoc, List.length_append,
    Nat.add_assoc, List.append_assoc]

theorem scans_skip {t : Terminal} (plain : isMark t = false) (n : Nat) : Scans n [t] [] [] :=
  fun block outer rest => closestThen_skip plain n block outer rest

theorem scans_then (n : Nat) : Scans n [.THEN] [] [n] := fun _ _ _ => rfl

theorem Scans.block {n : Nat} {ts : List Terminal} {pairs : List (Nat × Nat)} {pending : List Nat}
    (inside : Scans (n + 1) ts pairs pending) :
    Scans n (.TBEGIN :: (ts ++ [.END])) pairs [] := by
  -- a block leaves nothing pending around it
  intro block outer rest
  have opened : closestThen n block outer (.TBEGIN :: (ts ++ [.END]) ++ rest) =
      closestThen (n + 1) [] (block :: outer) (ts ++ (.END :: rest)) := by
    rw [List.cons_append, List.append_assoc]
    rfl
  have closed : closestThen (n + 1 + ts.length) (pending ++ []) (block :: outer) (.END :: rest) =
      closestThen (n + 1 + ts.length + 1) block outer rest := rfl
  rw [opened, inside, closed]
  congr 2
  simp only [List.length_cons, List.length_append, List.length_nil]
  omega

theorem Scans.ifElse {m : Nat} {ts us : List Terminal} {pairs pairs' : List (Nat × Nat)}
    {pending : List Nat} (yes : Scans (m + 1) ts pairs [])
    (no : Scans (m + 1 + ts.length + 1) us pairs' pending) :
    Scans m (.THEN :: (ts ++ .ELSE :: us)) (pairs ++ (m, m + 1 + ts.length) :: pairs') pending := by
  -- an ELSE takes the THEN that is pending before a branch that leaves none
  intro block outer rest
  have opened : closestThen m block outer (.THEN :: (ts ++ .ELSE :: us) ++ rest) =
      closestThen (m + 1) (m :: block) outer (ts ++ .ELSE :: (us ++ rest)) := by
    rw [List.cons_append, List.append_assoc]
    rfl
  have taken : closestThen (m + 1 + ts.length) (m :: block) outer (.ELSE :: (us ++ rest)) =
      (some m, m + 1 + ts.length) :: closestThen (m + 1 + ts.length + 1) block outer (us ++ rest) := rfl
  rw [opened, yes, List.nil_append, taken, no, List.map_append, List.map_cons, List.append_assoc,
    List.cons_append]
  congr 4
  simp only [List.length_cons, List.length_append]
  omega

theorem Scans.after {ts us : List Terminal} {pairs : List (Nat × Nat)} {pending : List Nat} {n m : Nat}
    (scan : Scans m us pairs pending) (plain : Unmarked ts) (here : m = n + ts.length) :
    Scans n (ts ++ us) pairs pending := by
  -- tokens that are no marks only move the position
  subst here
  have whole := (scans_unmarked plain n).append scan
  rwa [List.nil_append, List.append_nil] at whole

theorem scans_others {others : List StmtTree}
    (each : ∀ s ∈ others, ∀ n, ∃ pending, Scans n s.tokens (s.attached n) pending) :
    ∀ n, ∃ pending, Scans n (tokensAfter others) (attachedAfter n others) pending := by
  induction others with
  | nil => exact fun n => ⟨[], scans_unmarked unmarked_nil n⟩
  | cons s others ih =>
    intro n
    obtain ⟨pending, one⟩ := each s List.mem_cons_self (n + 1)
    obtain ⟨pending', more⟩ := ih (fun t member => each t (List.mem_cons_of_mem s member))
      (n + 1 + s.tokens.length)
    exact ⟨_, (scans_skip (show isMark (.char ';') = false from rfl) n).append (one.append more)⟩

-- The scan of a tree finds what is attached in it, and a tree that may come before ELSE leaves
-- nothing pending.
theorem Derived.scans {t : StmtTree} (derived : t.Derived) {elseNext : Bool}
    (respects : t.Respects elseNext) (n : Nat) :
    ∃ pending, (elseNext = true → pending = []) ∧ Scans n t.tokens (t.attached n) pending := by
  induction derived generalizing elseNext n with
  | assign target source =>
    have plain := (unmarked_of_derives target).append
      (.cons (show isMark .ASSIGNOP = false from rfl) (unmarked_of_derives source))
    exact ⟨[], fun _ => rfl, scans_unmarked plain n⟩
  | procName path => exact ⟨[], fun _ => rfl, scans_unmarked (unmarked_of_derives path) n⟩
  | procCall path args =>
    have plain := unmarked_of_derives (Derives.factorCall path args)
    exact ⟨[], fun _ => rfl, scans_unmarked plain n⟩
  | empty => exact ⟨[], fun _ => rfl, fun _ _ _ => rfl⟩
  | @compound first others one more ih₁ ih₂ =>
    obtain ⟨pending, -, scan⟩ := ih₁ respects.1 (n + 1)
    have each : ∀ s ∈ others, ∀ n, ∃ pending, Scans n s.tokens (s.attached n) pending := by
      intro s member n
      obtain ⟨pending, -, scan⟩ := ih₂ s member (allRespect_iff.mp respects.2 s member) n
      exact ⟨pending, scan⟩
    obtain ⟨pending', scans⟩ := scans_others each (n + 1 + first.tokens.length)
    refine ⟨[], fun _ => rfl, ?_⟩
    have whole := (scan.append scans).block
    rw [List.append_assoc] at whole
    exact whole
  | @ifThen cond thenn test yes ih =>
    obtain ⟨pending, -, scan⟩ := ih respects.2 (n + 1 + cond.text.length + 1)
    have yes_ := (scans_then (n + 1 + cond.text.length)).append scan
    refine ⟨pending ++ [n + 1 + cond.text.length], ?_, ?_⟩
    · intro next
      cases respects.1.symm.trans next
    · have plain := Unmarked.cons (show isMark .IF = false from rfl) (unmarked_of_derives test)
      exact yes_.after plain (by rw [List.length_cons]; omega)
  | @ifElse cond thenn elze test yes no ih₁ ih₂ =>
    obtain ⟨pending, none_, scan⟩ := ih₁ respects.1 (n + 1 + cond.text.length + 1)
    obtain ⟨pending', noneAfter, scan'⟩ := ih₂ respects.2
      (n + 1 + cond.text.length + 1 + thenn.tokens.length + 1)
    cases none_ rfl
    have plain := Unmarked.cons (show isMark .IF = false from rfl) (unmarked_of_derives test)
    exact ⟨pending', noneAfter, (scan.ifElse scan').after plain (by rw [List.length_cons]; omega)⟩
  | @whileDo cond body test loop ih =>
    obtain ⟨pending, closed, scan⟩ := ih respects (n + 1 + cond.text.length + 1)
    have plain : Unmarked (.WHILE :: (cond.text ++ [.DO])) :=
      .cons rfl ((unmarked_of_derives test).append (.cons rfl unmarked_nil))
    have whole := @Scans.after _ _ _ _ n _ scan plain (by simp; omega)
    rw [List.cons_append, List.append_assoc] at whole
    exact ⟨pending, closed, whole⟩
  | @forTo id start finish body first last loop ih =>
    obtain ⟨pending, closed, scan⟩ := ih respects
      (n + 3 + start.text.length + 1 + finish.text.length + 1)
    have bound : Unmarked (finish.text ++ [.DO]) :=
      (unmarked_of_derives last).append (.cons rfl unmarked_nil)
    have plain : Unmarked (.FOR :: .ID id :: .ASSIGNOP :: (start.text ++ .TO :: (finish.text ++ [.DO]))) :=
      .cons rfl (.cons rfl (.cons rfl ((unmarked_of_derives first).append (.cons rfl bound))))
    have whole := @Scans.after _ _ _ _ n _ scan plain (by simp; omega)
    simp only [List.cons_append, List.append_assoc] at whole
    exact ⟨pending, closed, whole⟩

end StmtTree

/-- The statements of the language: what has a derivation. -/
def Accepted (ts : List Terminal) : Prop := ∃ t : StmtTree, t.Derived ∧ t.tokens = ts

/-- An accepted statement has one derivation that respects the precedence, and in that each ELSE is
attached to the closest THEN. -/
theorem else_closest {ts : List Terminal} (accepted : Accepted ts) :
    ∃ t : StmtTree, (t.Derived ∧ t.tokens = ts ∧ t.Respects false) ∧
      (∀ t' : StmtTree, t'.Derived → t'.tokens = ts → t'.Respects false → t' = t) ∧
      (t.attached 0).map StmtTree.found = closestThen 0 [] [] ts := by
  obtain ⟨u, derived, rfl⟩ := accepted
  obtain ⟨t, derived, same, respects⟩ := derived.exists_respects
  refine ⟨t, ⟨derived, same, respects⟩, ?_, ?_⟩
  · intro t' derived' same' respects'
    have nothing : StmtTree.Follows [] := by
      intro t member
      cases member
    have tokens : t'.tokens ++ [] = t.tokens ++ [] := by rw [same, same']
    exact (derived'.unique t [] [] derived tokens respects' respects nothing nothing).1
  · obtain ⟨pending, -, scan⟩ := derived.scans respects 0
    have whole := scan [] [] []
    rw [List.append_nil, same] at whole
    rw [whole, closestThen, List.append_nil]

-- if a then if b then c else d
def danglingElse : List Terminal := [.IF, .ID "a", .THEN, .IF, .ID "b", .THEN, .ID "c", .ELSE, .ID "d"]

-- The ELSE belongs to the second THEN.
theorem danglingElse_closest :
    ∃ t : StmtTree, (t.Derived ∧ t.tokens = danglingElse ∧ t.Respects false) ∧
      (∀ t' : StmtTree, t'.Derived → t'.tokens = danglingElse → t'.Respects false → t' = t) ∧
      (t.attached 0).map StmtTree.found = [(some 5, 7)] := by
  have name : ∀ n, Derives writtenActions .expression [.ID n] (.expr (.path (astPath n))) :=
    fun n => .expressionSimple (.simpleTerm (.termFactor (.factorLvalue (.lvaluePath .pathName))))
  have call : ∀ n, StmtTree.Derived (.proc [.ID n] (astPath n) []) :=
    fun n => .procName .pathName
  have inner := @StmtTree.Derived.ifThen ⟨[.ID "b"], .path (astPath "b")⟩ _ (name "b") (call "c")
  have outer := @StmtTree.Derived.ifElse ⟨[.ID "a"], .path (astPath "a")⟩ _ _ (name "a") inner (call "d")
  exact else_closest ⟨_, outer, rfl⟩

end Dragon
