import Dragon.Parser.Grammar

/-! Reading expressions from the left, one token ahead.

A left-recursive production is read as its first part and a loop over the
others. The next token always says which case applies, so there is one way to
read, and whatever the productions derive is read so. Hence the grammar is not
ambiguous.
-/

set_option autoImplicit false

namespace Dragon

/-- What is to be read. A loop has the value so far. -/
inductive Task (E : Type) where
  | path
  | fields (p : AstPath)
  | factor
  | suffix (p : AstPath)
  | term
  | factors (e : E)
  | simple
  | terms (e : E)
  | expression
  | list
  | members (es : List E)

def isSuffix : Terminal → Bool
  | .char '.' | .char '(' | .char '[' | .char '^' => true
  | _ => false

/-- The first token, if there is one, is not of a kind. -/
def Clear (kind : Terminal → Bool) (s : List Terminal) : Prop := ∀ t ∈ s.head?, kind t = false

/-- A list of expressions starts with no expression. -/
def isSeparator (t : Terminal) : Bool := t == .char ')' || t == .char ','

/-- A task reads tokens up to a rest. -/
inductive Reads {E : Type} (A : Actions E) :
    Task E → List Terminal → Value E → List Terminal → Prop where
  | path {n : Name} {s r : List Terminal} {v : Value E}
      (fields : Reads A (.fields (astPath n)) s v r) : Reads A .path (.ID n :: s) v r
  | field {p : AstPath} {n : Name} {s r : List Terminal} {v : Value E}
      (fields : Reads A (.fields (astPathAppend p n)) s v r) :
      Reads A (.fields p) (.char '.' :: .ID n :: s) v r
  | fieldsEnd {p : AstPath} {s : List Terminal} (ends : Clear (· == .char '.') s) :
      Reads A (.fields p) s (.path p) s
  | factorPath {p : AstPath} {s s' r : List Terminal} {v : Value E}
      (path : Reads A .path s (.path p) s') (suffix : Reads A (.suffix p) s' v r) :
      Reads A .factor s v r
  | factorNum {n : Name} {s : List Terminal} : Reads A .factor (.NUM n :: s) (.expr (A.lit n)) s
  | factorParen {e : E} {s r : List Terminal}
      (inside : Reads A .expression s (.expr e) (.char ')' :: r)) :
      Reads A .factor (.char '(' :: s) (.expr (A.paren e)) r
  | factorNot {e : E} {s r : List Terminal} (operand : Reads A .factor s (.expr e) r) :
      Reads A .factor (.NOT :: s) (.expr (A.un .not e)) r
  | factorAddrof {e : E} {s r : List Terminal} (operand : Reads A .factor s (.expr e) r) :
      Reads A .factor (.char '@' :: s) (.expr (A.addrof e)) r
  | suffixCall {p : AstPath} {es : List E} {s r : List Terminal}
      (args : Reads A .list s (.list es) (.char ')' :: r)) :
      Reads A (.suffix p) (.char '(' :: s) (.expr (A.app p es)) r
  | suffixIndex {p : AstPath} {e : E} {s r : List Terminal}
      (index : Reads A .expression s (.expr e) (.char ']' :: r)) :
      Reads A (.suffix p) (.char '[' :: s) (.expr (A.idx p e)) r
  | suffixDeref {p : AstPath} {s : List Terminal} :
      Reads A (.suffix p) (.char '^' :: s) (.expr (A.deref p)) s
  | suffixEnd {p : AstPath} {s : List Terminal} (ends : Clear isSuffix s) :
      Reads A (.suffix p) s (.expr (A.path p)) s
  | term {e : E} {s s' r : List Terminal} {v : Value E} (first : Reads A .factor s (.expr e) s')
      (others : Reads A (.factors e) s' v r) : Reads A .term s v r
  | mulop {e f : E} {t : Terminal} {op : Token} {s s' r : List Terminal} {v : Value E}
      (operator : mulop t = some op) (right : Reads A .factor s (.expr f) s')
      (others : Reads A (.factors (A.bin op e f)) s' v r) : Reads A (.factors e) (t :: s) v r
  | factorsEnd {e : E} {s : List Terminal} (ends : Clear (fun t => (mulop t).isSome) s) :
      Reads A (.factors e) s (.expr e) s
  | simpleTerm {e : E} {s s' r : List Terminal} {v : Value E}
      (unsigned : Clear (fun t => (sign t).isSome) s) (first : Reads A .term s (.expr e) s')
      (others : Reads A (.terms e) s' v r) : Reads A .simple s v r
  | simpleSign {e : E} {t : Terminal} {op : Token} {s s' r : List Terminal} {v : Value E}
      (operator : sign t = some op) (first : Reads A .term s (.expr e) s')
      (others : Reads A (.terms (A.un op e)) s' v r) : Reads A .simple (t :: s) v r
  | addop {e f : E} {t : Terminal} {op : Token} {s s' r : List Terminal} {v : Value E}
      (operator : addop t = some op) (right : Reads A .term s (.expr f) s')
      (others : Reads A (.terms (A.bin op e f)) s' v r) : Reads A (.terms e) (t :: s) v r
  | termsEnd {e : E} {s : List Terminal} (ends : Clear (fun t => (addop t).isSome) s) :
      Reads A (.terms e) s (.expr e) s
  | expressionRelop {e f : E} {t : Terminal} {op : Token} {s s' r : List Terminal}
      (left : Reads A .simple s (.expr e) (t :: s')) (operator : relop t = some op)
      (right : Reads A .simple s' (.expr f) r) : Reads A .expression s (.expr (A.bin op e f)) r
  | expressionSimple {e : E} {s r : List Terminal} (simple : Reads A .simple s (.expr e) r)
      (ends : Clear (fun t => (relop t).isSome) r) : Reads A .expression s (.expr e) r
  | listOne {e : E} {s s' r : List Terminal} {v : Value E} (some_ : Clear isSeparator s)
      (first : Reads A .expression s (.expr e) s') (others : Reads A (.members [e]) s' v r) :
      Reads A .list s v r
  | listEmpty {s r : List Terminal} {v : Value E} (none_ : Begins isSeparator s)
      (others : Reads A (.members []) s v r) : Reads A .list s v r
  | member {e : E} {es : List E} {s s' r : List Terminal} {v : Value E}
      (next : Reads A .expression s (.expr e) s') (others : Reads A (.members (es ++ [e])) s' v r) :
      Reads A (.members es) (.char ',' :: s) v r
  | membersEnd {es : List E} {s : List Terminal} (ends : Clear (· == .char ',') s) :
      Reads A (.members es) s (.list es) s

section

variable {E : Type} {A : Actions E}

theorem Clear.not {kind : Terminal → Bool} {t : Terminal} {s : List Terminal}
    (ends : Clear kind (t :: s)) : kind t = false := ends t rfl

theorem Reads.unique {task : Task E} {s r r' : List Terminal} {v v' : Value E}
    (read : Reads A task s v r) (read' : Reads A task s v' r') : v = v' ∧ r = r' := by
  -- the next token decides how a task is read
  induction read generalizing v' r' with
  | path _ ih =>
    cases read' with
    | path fields => exact ih fields
  | field _ ih =>
    cases read' with
    | field fields => exact ih fields
    | fieldsEnd ends => cases ends.not
  | fieldsEnd ends =>
    cases read' with
    | field => cases ends.not
    | fieldsEnd => exact ⟨rfl, rfl⟩
  | factorPath path _ ih₁ ih₂ =>
    cases read' with
    | factorPath path' suffix =>
      obtain ⟨same, rfl⟩ := ih₁ path'
      cases same
      exact ih₂ suffix
    | factorNum => cases path
    | factorParen => cases path
    | factorNot => cases path
    | factorAddrof => cases path
  | factorNum =>
    cases read' with
    | factorPath path => cases path
    | factorNum => exact ⟨rfl, rfl⟩
  | factorParen _ ih =>
    cases read' with
    | factorPath path => cases path
    | factorParen inside =>
      obtain ⟨same, rest⟩ := ih inside
      cases same
      cases rest
      exact ⟨rfl, rfl⟩
  | factorNot _ ih =>
    cases read' with
    | factorPath path => cases path
    | factorNot operand =>
      obtain ⟨same, rfl⟩ := ih operand
      cases same
      exact ⟨rfl, rfl⟩
  | factorAddrof _ ih =>
    cases read' with
    | factorPath path => cases path
    | factorAddrof operand =>
      obtain ⟨same, rfl⟩ := ih operand
      cases same
      exact ⟨rfl, rfl⟩
  | suffixCall _ ih =>
    cases read' with
    | suffixCall args =>
      obtain ⟨same, rest⟩ := ih args
      cases same
      cases rest
      exact ⟨rfl, rfl⟩
    | suffixEnd ends => cases ends.not
  | suffixIndex _ ih =>
    cases read' with
    | suffixIndex index =>
      obtain ⟨same, rest⟩ := ih index
      cases same
      cases rest
      exact ⟨rfl, rfl⟩
    | suffixEnd ends => cases ends.not
  | suffixDeref =>
    cases read' with
    | suffixDeref => exact ⟨rfl, rfl⟩
    | suffixEnd ends => cases ends.not
  | suffixEnd ends =>
    cases read' with
    | suffixEnd => exact ⟨rfl, rfl⟩
    | _ => cases ends.not
  | term _ _ ih₁ ih₂ =>
    cases read' with
    | term first others =>
      obtain ⟨same, rfl⟩ := ih₁ first
      cases same
      exact ih₂ others
  | mulop operator _ _ ih₁ ih₂ =>
    cases read' with
    | mulop operator' right others =>
      cases operator.symm.trans operator'
      obtain ⟨same, rfl⟩ := ih₁ right
      cases same
      exact ih₂ others
    | factorsEnd ends =>
      have none_ := ends.not
      simp [operator] at none_
  | factorsEnd ends =>
    cases read' with
    | mulop operator =>
      have none_ := ends.not
      simp [operator] at none_
    | factorsEnd => exact ⟨rfl, rfl⟩
  | simpleTerm unsigned _ _ ih₁ ih₂ =>
    cases read' with
    | simpleTerm _ first others =>
      obtain ⟨same, rfl⟩ := ih₁ first
      cases same
      exact ih₂ others
    | simpleSign operator =>
      have none_ := unsigned.not
      simp [operator] at none_
  | simpleSign operator _ _ ih₁ ih₂ =>
    cases read' with
    | simpleTerm unsigned =>
      have none_ := unsigned.not
      simp [operator] at none_
    | simpleSign operator' first others =>
      cases operator.symm.trans operator'
      obtain ⟨same, rfl⟩ := ih₁ first
      cases same
      exact ih₂ others
  | addop operator _ _ ih₁ ih₂ =>
    cases read' with
    | addop operator' right others =>
      cases operator.symm.trans operator'
      obtain ⟨same, rfl⟩ := ih₁ right
      cases same
      exact ih₂ others
    | termsEnd ends =>
      have none_ := ends.not
      simp [operator] at none_
  | termsEnd ends =>
    cases read' with
    | addop operator =>
      have none_ := ends.not
      simp [operator] at none_
    | termsEnd => exact ⟨rfl, rfl⟩
  | expressionRelop _ operator _ ih₁ ih₂ =>
    cases read' with
    | expressionRelop left operator' right =>
      obtain ⟨same, rest⟩ := ih₁ left
      cases same
      cases rest
      cases operator.symm.trans operator'
      obtain ⟨same, rfl⟩ := ih₂ right
      cases same
      exact ⟨rfl, rfl⟩
    | expressionSimple simple ends =>
      obtain ⟨-, rfl⟩ := ih₁ simple
      have none_ := ends.not
      simp [operator] at none_
  | expressionSimple _ ends ih =>
    cases read' with
    | expressionRelop left operator =>
      obtain ⟨-, rfl⟩ := ih left
      have none_ := ends.not
      simp [operator] at none_
    | expressionSimple simple => exact ih simple
  | listOne some_ _ _ ih₁ ih₂ =>
    cases read' with
    | listOne _ first others =>
      obtain ⟨same, rfl⟩ := ih₁ first
      cases same
      exact ih₂ others
    | listEmpty none_ =>
      obtain ⟨t, us, rfl, here⟩ := none_
      cases some_.not.symm.trans here
  | listEmpty none_ _ ih =>
    cases read' with
    | listOne some_ =>
      obtain ⟨t, us, rfl, here⟩ := none_
      cases some_.not.symm.trans here
    | listEmpty _ others => exact ih others
  | member _ _ ih₁ ih₂ =>
    cases read' with
    | member next others =>
      obtain ⟨same, rfl⟩ := ih₁ next
      cases same
      exact ih₂ others
    | membersEnd ends => cases ends.not
  | membersEnd ends =>
    cases read' with
    | member => cases ends.not
    | membersEnd => exact ⟨rfl, rfl⟩

/-! ## What is derived is read -/

def isOperator (t : Terminal) : Bool :=
  isSuffix t || (mulop t).isSome || (addop t).isSome || (relop t).isSome

theorem Clear.of_not {kind : Terminal → Bool} {t : Terminal} {s : List Terminal}
    (other : kind t = false) : Clear kind (t :: s) := by
  intro u member
  rw [← Option.some.inj member]
  exact other

theorem Clear.mono {kind kind' : Terminal → Bool} {s : List Terminal} (ends : Clear kind s)
    (weaker : ∀ t, kind' t = true → kind t = true) : Clear kind' s := by
  intro t member
  cases here : kind' t with
  | false => rfl
  | true => rw [← ends t member, weaker t here]

theorem Clear.suffix {s : List Terminal} (ends : Clear isOperator s) : Clear isSuffix s :=
  ends.mono fun t here => by simp [isOperator, here]

theorem Clear.mulop {s : List Terminal} (ends : Clear isOperator s) :
    Clear (fun t => (mulop t).isSome) s := ends.mono fun t here => by simp [isOperator, here]

theorem Clear.addop {s : List Terminal} (ends : Clear isOperator s) :
    Clear (fun t => (addop t).isSome) s := ends.mono fun t here => by simp [isOperator, here]

theorem Clear.relop {s : List Terminal} (ends : Clear isOperator s) :
    Clear (fun t => (relop t).isSome) s := ends.mono fun t here => by simp [isOperator, here]

theorem Begins.ends {kind kind' : Terminal → Bool} {s : List Terminal} (begins : Begins kind s)
    (apart : ∀ t, kind t = true → kind' t = false) : Clear kind' s := by
  obtain ⟨t, us, rfl, here⟩ := begins
  exact .of_not (apart t here)

theorem isOperator_separator {t : Terminal} (separator : isSeparator t = true) :
    isOperator t = false := by
  simp only [isSeparator, Bool.or_eq_true, beq_iff_eq] at separator
  rcases separator with rfl | rfl <;> rfl

theorem mulop_apart {t : Terminal} {op : Token} (operator : mulop t = some op) :
    isSuffix t = false := by
  unfold mulop at operator
  split at operator <;> first | rfl | cases operator

theorem addop_apart {t : Terminal} {op : Token} (operator : addop t = some op) :
    isSuffix t = false ∧ mulop t = none := by
  unfold addop at operator
  split at operator <;> first | exact ⟨rfl, rfl⟩ | cases operator

theorem relop_apart {t : Terminal} {op : Token} (operator : relop t = some op) :
    isSuffix t = false ∧ mulop t = none ∧ addop t = none := by
  unfold relop at operator
  split at operator <;> first | exact ⟨rfl, rfl, rfl⟩ | cases operator

theorem isSuffix_of_dot {t : Terminal} (dot : (t == .char '.') = true) : isSuffix t = true := by
  rw [beq_iff_eq.mp dot]
  rfl

theorem isSeparator_of_first {t : Terminal} (first : Symbol.expression.first t = true) :
    isSeparator t = false := by
  cases here : isSeparator t with
  | false => rfl
  | true =>
    simp only [isSeparator, Bool.or_eq_true, beq_iff_eq] at here
    rcases here with rfl | rfl <;> cases first

theorem sign_of_first {t : Terminal} (first : Symbol.term.first t = true) : sign t = none := by
  cases here : sign t with
  | none => rfl
  | some op =>
    unfold sign at here
    split at here <;> first | cases first | cases here

/-- How the tokens of a symbol are read before a rest; a left-recursive symbol goes on with its
loop. -/
def ReadAs (A : Actions E) : Symbol → List Terminal → Value E → Prop
  | .path, ts, .path p => ∀ rest w r, Reads A (.fields p) rest w r → Reads A .path (ts ++ rest) w r
  | .lvalue, ts, v | .factor, ts, v => ∀ rest, Clear isSuffix rest → Reads A .factor (ts ++ rest) v rest
  | .term, ts, .expr e => ∀ rest w r, Clear isSuffix rest → Reads A (.factors e) rest w r →
      Reads A .term (ts ++ rest) w r
  | .simpleExpression, ts, .expr e => ∀ rest w r, Clear isSuffix rest →
      Clear (fun t => (Dragon.mulop t).isSome) rest → Reads A (.terms e) rest w r →
      Reads A .simple (ts ++ rest) w r
  | .expression, ts, v => ∀ rest, Clear isOperator rest → Reads A .expression (ts ++ rest) v rest
  | .expressionList, ts, .list es => ∀ rest w r, Begins isSeparator rest →
      Reads A (.members es) rest w r → Reads A .list (ts ++ rest) w r
  | _, _, _ => True

-- The tokens that a symbol derives are read as such. The induction is on the derivation, and the
-- rest is what follows in the production above it.
theorem Derives.readAs {s : Symbol} {ts : List Terminal} {v : Value E} (derived : Derives A s ts v) :
    ReadAs A s ts v := by
  induction derived with
  | pathField _ ih =>
    intro rest w r fields
    rw [List.append_assoc]
    exact ih _ _ _ (.field fields)
  | pathName =>
    intro rest w r fields
    exact .path fields
  | lvaluePath _ ih =>
    intro rest ends
    have noField := ends.mono fun t => isSuffix_of_dot
    exact .factorPath (ih _ _ _ (.fieldsEnd noField)) (.suffixEnd ends)
  | lvalueIndex _ _ ih₁ ih₂ =>
    intro rest ends
    rw [List.append_assoc, List.cons_append, List.append_assoc]
    have index := ih₂ (.char ']' :: rest) (.of_not rfl)
    exact .factorPath (ih₁ _ _ _ (.fieldsEnd (.of_not rfl))) (.suffixIndex index)
  | lvalueDeref _ ih =>
    intro rest ends
    rw [List.append_assoc]
    exact .factorPath (ih _ _ _ (.fieldsEnd (.of_not rfl))) .suffixDeref
  | listOne one ih =>
    intro rest w r separator members
    have operators := separator.ends fun t => isOperator_separator
    have some_ : Clear isSeparator (_ ++ rest) :=
      ((one.begins (by decide)).append rest).ends fun t => isSeparator_of_first
    exact .listOne some_ (ih rest operators) members
  | listMore _ _ ih₁ ih₂ =>
    intro rest w r separator members
    have operators := separator.ends fun t => isOperator_separator
    rw [List.append_assoc]
    exact ih₁ _ _ _ ⟨_, _, rfl, rfl⟩ (.member (ih₂ rest operators) members)
  | listEmpty =>
    intro rest w r separator members
    exact .listEmpty separator members
  | expressionSimple _ ih =>
    intro rest ends
    exact .expressionSimple (ih _ _ _ ends.suffix ends.mulop (.termsEnd ends.addop)) ends.relop
  | expressionRelop _ operator _ ih₁ ih₂ =>
    intro rest ends
    rw [List.append_assoc]
    obtain ⟨suffix, mul, add⟩ := relop_apart operator
    have right := ih₂ _ _ _ ends.suffix ends.mulop (.termsEnd ends.addop)
    exact .expressionRelop (ih₁ _ _ _ (.of_not suffix) (.of_not (by simp [mul]))
      (.termsEnd (.of_not (by simp [add])))) operator right
  | simpleTerm term ih =>
    intro rest w r suffix mul others
    have unsigned : Clear (fun t => (sign t).isSome) (_ ++ rest) :=
      ((term.begins (by decide)).append rest).ends fun t first => by simp [sign_of_first first]
    exact .simpleTerm unsigned (ih _ _ _ suffix (.factorsEnd mul)) others
  | simpleSign operator _ ih =>
    intro rest w r suffix mul others
    exact .simpleSign operator (ih _ _ _ suffix (.factorsEnd mul)) others
  | simpleAddop _ operator _ ih₁ ih₂ =>
    intro rest w r suffix mul others
    rw [List.append_assoc]
    obtain ⟨notSuffix, notMul⟩ := addop_apart operator
    have right := ih₂ _ _ _ suffix (.factorsEnd mul)
    exact ih₁ _ _ _ (.of_not notSuffix) (.of_not (by simp [notMul])) (.addop operator right others)
  | termFactor _ ih =>
    intro rest w r suffix others
    exact .term (ih _ suffix) others
  | termMulop _ operator _ ih₁ ih₂ =>
    intro rest w r suffix others
    rw [List.append_assoc]
    exact ih₁ _ _ _ (.of_not (mulop_apart operator)) (.mulop operator (ih₂ _ suffix) others)
  | factorCall _ _ ih₁ ih₂ =>
    intro rest ends
    rw [List.append_assoc, List.cons_append, List.append_assoc]
    have args := ih₂ (.char ')' :: rest) _ _ ⟨_, _, rfl, rfl⟩ (.membersEnd (.of_not rfl))
    exact .factorPath (ih₁ _ _ _ (.fieldsEnd (.of_not rfl))) (.suffixCall args)
  | factorNum =>
    intro rest ends
    exact .factorNum
  | factorParen _ ih =>
    intro rest ends
    rw [List.cons_append, List.append_assoc]
    exact .factorParen (ih _ (.of_not rfl))
  | factorNot _ ih =>
    intro rest ends
    exact .factorNot (ih rest ends)
  | factorLvalue _ ih =>
    intro rest ends
    exact ih rest ends
  | factorAddrof _ ih =>
    intro rest ends
    exact .factorAddrof (ih rest ends)

theorem Derives.path_unique {ts ts' s s' : List Terminal} {p p' : AstPath}
    (derived : Derives A .path ts (.path p)) (derived' : Derives A .path ts' (.path p'))
    (same : ts ++ s = ts' ++ s') (ends : Clear (· == .char '.') s)
    (ends' : Clear (· == .char '.') s') : p = p' ∧ s = s' := by
  -- a path ends where no field follows
  have read := derived.readAs s _ _ (.fieldsEnd ends)
  rw [same] at read
  obtain ⟨value, rest⟩ := read.unique (derived'.readAs s' _ _ (.fieldsEnd ends'))
  exact ⟨Value.path.inj value, rest⟩

-- Two derivations from the start of the same tokens, up to where no operator follows, are the
-- same.
theorem Derives.expression_unique {ts ts' s s' : List Terminal} {v v' : Value E}
    (derived : Derives A .expression ts v) (derived' : Derives A .expression ts' v')
    (same : ts ++ s = ts' ++ s') (ends : Clear isOperator s) (ends' : Clear isOperator s') :
    v = v' ∧ ts = ts' ∧ s = s' := by
  have read := derived.readAs s ends
  rw [same] at read
  obtain ⟨value, rest⟩ := read.unique (derived'.readAs s' ends')
  subst rest
  exact ⟨value, List.append_cancel_right same, rfl⟩

theorem Derives.factor_unique {ts ts' s s' : List Terminal} {v v' : Value E}
    (derived : Derives A .factor ts v) (derived' : Derives A .factor ts' v')
    (same : ts ++ s = ts' ++ s') (ends : Clear isSuffix s) (ends' : Clear isSuffix s') :
    v = v' ∧ ts = ts' ∧ s = s' := by
  have read := derived.readAs s ends
  rw [same] at read
  obtain ⟨value, rest⟩ := read.unique (derived'.readAs s' ends')
  subst rest
  exact ⟨value, List.append_cancel_right same, rfl⟩

end

end Dragon
