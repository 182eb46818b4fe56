import Dragon.Lexer.Rules

/-! The productions of parser.y for expressions.

An action builds its value from the values of its symbols. The productions are
stated for any actions, so that what holds of the grammar can be asked of the
syntax trees of ast.c and of any other reading of it.
-/

set_option autoImplicit false

namespace Dragon

def astPathAppend (p : AstPath) (name : Name) : AstPath := ⟨p.first, p.rest ++ [name]⟩

structure Actions (E : Type) where
  app : AstPath → List E → E
  bin : Token → E → E → E
  deref : AstPath → E
  idx : AstPath → E → E
  lit : Name → E
  path : AstPath → E
  un : Token → E → E
  addrof : E → E
  paren : E → E

/-- The actions of parser.y. A parenthesized expression has the value of the one inside. -/
def astActions : Actions AstExpr where
  app := .app
  bin := .bin
  deref p := .deref (.path p)
  idx := .idx
  lit := .lit
  path := .path
  un := .un
  addrof := .addrof
  paren e := e

def sign : Terminal → Option Token
  | .char '+' => some .plus
  | .char '-' => some .minus
  | _ => none

def relop : Terminal → Option Token
  | .char '=' => some .eq
  | .NEQ => some .neq
  | .char '<' => some .lt
  | .char '>' => some .gt
  | .LE => some .le
  | .GE => some .ge
  | _ => none

def addop : Terminal → Option Token
  | .char '+' => some .plus
  | .char '-' => some .minus
  | .OR => some .or
  | _ => none

def mulop : Terminal → Option Token
  | .char '*' => some .star
  | .char '/' => some .slash
  | .DIV => some .div
  | .MOD => some .mod
  | .AND => some .and
  | _ => none

inductive Symbol where
  | path | lvalue | expressionList | expression | simpleExpression | term | factor
  deriving DecidableEq, Repr

/-- The value of a symbol: a path, an expression or a list of expressions. -/
inductive Value (E : Type) where
  | path (p : AstPath)
  | expr (e : E)
  | list (es : List E)

/-- The tokens a symbol derives, with the value its actions build. -/
inductive Derives {E : Type} (A : Actions E) : Symbol → List Terminal → Value E → Prop where
  | pathField {ts : List Terminal} {p : AstPath} {n : Name} (path : Derives A .path ts (.path p)) :
      Derives A .path (ts ++ [.char '.', .ID n]) (.path (astPathAppend p n))
  | pathName {n : Name} : Derives A .path [.ID n] (.path (astPath n))
  | lvaluePath {ts : List Terminal} {p : AstPath} (path : Derives A .path ts (.path p)) :
      Derives A .lvalue ts (.expr (A.path p))
  | lvalueIndex {ts us : List Terminal} {p : AstPath} {e : E} (path : Derives A .path ts (.path p))
      (index : Derives A .expression us (.expr e)) :
      Derives A .lvalue (ts ++ .char '[' :: (us ++ [.char ']'])) (.expr (A.idx p e))
  | lvalueDeref {ts : List Terminal} {p : AstPath} (path : Derives A .path ts (.path p)) :
      Derives A .lvalue (ts ++ [.char '^']) (.expr (A.deref p))
  | listOne {ts : List Terminal} {e : E} (one : Derives A .expression ts (.expr e)) :
      Derives A .expressionList ts (.list [e])
  | listMore {ts us : List Terminal} {es : List E} {e : E}
      (list : Derives A .expressionList ts (.list es)) (last : Derives A .expression us (.expr e)) :
      Derives A .expressionList (ts ++ .char ',' :: us) (.list (es ++ [e]))
  | listEmpty : Derives A .expressionList [] (.list [])
  | expressionSimple {ts : List Terminal} {e : E}
      (simple : Derives A .simpleExpression ts (.expr e)) : Derives A .expression ts (.expr e)
  | expressionRelop {ts us : List Terminal} {t : Terminal} {op : Token} {e f : E}
      (left : Derives A .simpleExpression ts (.expr e)) (operator : relop t = some op)
      (right : Derives A .simpleExpression us (.expr f)) :
      Derives A .expression (ts ++ t :: us) (.expr (A.bin op e f))
  | simpleTerm {ts : List Terminal} {e : E} (term : Derives A .term ts (.expr e)) :
      Derives A .simpleExpression ts (.expr e)
  | simpleSign {ts : List Terminal} {t : Terminal} {op : Token} {e : E} (operator : sign t = some op)
      (term : Derives A .term ts (.expr e)) :
      Derives A .simpleExpression (t :: ts) (.expr (A.un op e))
  | simpleAddop {ts us : List Terminal} {t : Terminal} {op : Token} {e f : E}
      (left : Derives A .simpleExpression ts (.expr e)) (operator : addop t = some op)
      (right : Derives A .term us (.expr f)) :
      Derives A .simpleExpression (ts ++ t :: us) (.expr (A.bin op e f))
  | termFactor {ts : List Terminal} {e : E} (factor : Derives A .factor ts (.expr e)) :
      Derives A .term ts (.expr e)
  | termMulop {ts us : List Terminal} {t : Terminal} {op : Token} {e f : E}
      (left : Derives A .term ts (.expr e)) (operator : mulop t = some op)
      (right : Derives A .factor us (.expr f)) :
      Derives A .term (ts ++ t :: us) (.expr (A.bin op e f))
  | factorCall {ts us : List Terminal} {p : AstPath} {es : List E}
      (path : Derives A .path ts (.path p)) (args : Derives A .expressionList us (.list es)) :
      Derives A .factor (ts ++ .char '(' :: (us ++ [.char ')'])) (.expr (A.app p es))
  | factorNum {n : Name} : Derives A .factor [.NUM n] (.expr (A.lit n))
  | factorParen {ts : List Terminal} {e : E} (inside : Derives A .expression ts (.expr e)) :
      Derives A .factor (.char '(' :: (ts ++ [.char ')'])) (.expr (A.paren e))
  | factorNot {ts : List Terminal} {e : E} (operand : Derives A .factor ts (.expr e)) :
      Derives A .factor (.NOT :: ts) (.expr (A.un .not e))
  | factorLvalue {ts : List Terminal} {e : E} (lvalue : Derives A .lvalue ts (.expr e)) :
      Derives A .factor ts (.expr e)
  | factorAddrof {ts : List Terminal} {e : E} (operand : Derives A .factor ts (.expr e)) :
      Derives A .factor (.char '@' :: ts) (.expr (A.addrof e))

/-! ## The first token -/

def isOperand : Terminal → Bool
  | .ID _ | .NUM _ | .NOT | .char '(' | .char '@' => true
  | _ => false

def Symbol.first : Symbol → Terminal → Bool
  | .expression, t | .simpleExpression, t => isOperand t || (sign t).isSome
  | .path, t | .lvalue, t | .term, t | .factor, t => isOperand t
  | .expressionList, _ => true

/-- The tokens start with one of a kind. -/
def Begins (kind : Terminal → Bool) (ts : List Terminal) : Prop :=
  ∃ t us, ts = t :: us ∧ kind t = true

theorem Begins.append {kind : Terminal → Bool} {ts : List Terminal} (begins : Begins kind ts)
    (us : List Terminal) : Begins kind (ts ++ us) := by
  obtain ⟨t, vs, rfl, first⟩ := begins
  exact ⟨t, vs ++ us, rfl, first⟩

theorem Begins.mono {kind kind' : Terminal → Bool} {ts : List Terminal} (begins : Begins kind ts)
    (weaker : ∀ t, kind t = true → kind' t = true) : Begins kind' ts := by
  obtain ⟨t, us, rfl, first⟩ := begins
  exact ⟨t, us, rfl, weaker t first⟩

theorem first_expression {t : Terminal} (operand : isOperand t = true) :
    Symbol.simpleExpression.first t = true := by
  rw [Symbol.first, operand, Bool.true_or]

theorem Derives.begins {E : Type} {A : Actions E} {s : Symbol} {ts : List Terminal} {v : Value E}
    (derived : Derives A s ts v) (other : s ≠ .expressionList) : Begins s.first ts := by
  induction derived with
  | pathField _ ih => exact (ih (by decide)).append _
  | pathName => exact ⟨_, _, rfl, rfl⟩
  | lvaluePath _ ih => exact ih (by decide)
  | lvalueIndex _ _ ih => exact (ih (by decide)).append _
  | lvalueDeref _ ih => exact (ih (by decide)).append _
  | listOne => exact absurd rfl other
  | listMore => exact absurd rfl other
  | listEmpty => exact absurd rfl other
  | expressionSimple _ ih => exact ih (by decide)
  | expressionRelop _ _ _ ih => exact (ih (by decide)).append _
  | simpleTerm _ ih => exact (ih (by decide)).mono fun _ => first_expression
  | simpleSign operator => exact ⟨_, _, rfl, by simp [Symbol.first, operator]⟩
  | simpleAddop _ _ _ ih => exact (ih (by decide)).append _
  | termFactor _ ih => exact ih (by decide)
  | termMulop _ _ _ ih => exact (ih (by decide)).append _
  | factorCall _ _ ih => exact (ih (by decide)).append _
  | factorNum => exact ⟨_, _, rfl, rfl⟩
  | factorParen => exact ⟨_, _, rfl, rfl⟩
  | factorNot => exact ⟨_, _, rfl, rfl⟩
  | factorLvalue _ ih => exact ih (by decide)
  | factorAddrof => exact ⟨_, _, rfl, rfl⟩

end Dragon
