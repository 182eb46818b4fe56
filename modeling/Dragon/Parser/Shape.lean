import Dragon.Parser.Reading

/-! The shape of expressions.

The same productions are read with actions that keep the parentheses. In what
they build, an operator outside parentheses never has a looser one below it, and
on its right only tighter ones.
-/

set_option autoImplicit false

namespace Dragon

/-! ## Two sets of actions -/

section

variable {E F : Type}

/-- A relation of values that the actions keep. -/
structure Compatible (A : Actions E) (B : Actions F) (R : E → F → Prop) : Prop where
  app : ∀ p es fs, List.Forall₂ R es fs → R (A.app p es) (B.app p fs)
  bin : ∀ op e e' f f', R e f → R e' f' → R (A.bin op e e') (B.bin op f f')
  deref : ∀ p, R (A.deref p) (B.deref p)
  idx : ∀ p e f, R e f → R (A.idx p e) (B.idx p f)
  lit : ∀ n, R (A.lit n) (B.lit n)
  path : ∀ p, R (A.path p) (B.path p)
  un : ∀ op e f, R e f → R (A.un op e) (B.un op f)
  addrof : ∀ e f, R e f → R (A.addrof e) (B.addrof f)
  paren : ∀ e f, R e f → R (A.paren e) (B.paren f)

/-- The values of a symbol under both sets of actions. -/
inductive Value.Agree (R : E → F → Prop) : Value E → Value F → Prop where
  | path (p : AstPath) : Agree R (.path p) (.path p)
  | expr {e : E} {f : F} (related : R e f) : Agree R (.expr e) (.expr f)
  | list {es : List E} {fs : List F} (related : List.Forall₂ R es fs) : Agree R (.list es) (.list fs)

theorem Compatible.flip {A : Actions E} {B : Actions F} {R : E → F → Prop}
    (keep : Compatible A B R) : Compatible B A fun f e => R e f where
  app p _ _ all := keep.app p _ _ all.flip
  bin op _ _ _ _ left right := keep.bin op _ _ _ _ left right
  deref p := keep.deref p
  idx p _ _ index := keep.idx p _ _ index
  lit n := keep.lit n
  path p := keep.path p
  un op _ _ operand := keep.un op _ _ operand
  addrof _ _ target := keep.addrof _ _ target
  paren _ _ inside := keep.paren _ _ inside

theorem Derives.agree {A : Actions E} {B : Actions F} {R : E → F → Prop} (keep : Compatible A B R)
    {s : Symbol} {ts : List Terminal} {v : Value E} (derived : Derives A s ts v) :
    ∃ w, Derives B s ts w ∧ v.Agree R w := by
  induction derived with
  | pathField _ ih =>
    obtain ⟨_, path, agree⟩ := ih
    cases agree
    exact ⟨_, .pathField path, .path _⟩
  | pathName => exact ⟨_, .pathName, .path _⟩
  | lvaluePath _ ih =>
    obtain ⟨_, path, agree⟩ := ih
    cases agree
    exact ⟨_, .lvaluePath path, .expr (keep.path _)⟩
  | lvalueIndex _ _ ih₁ ih₂ =>
    obtain ⟨_, path, agree⟩ := ih₁
    cases agree
    obtain ⟨_, index, agree⟩ := ih₂
    cases agree with
    | expr related => exact ⟨_, .lvalueIndex path index, .expr (keep.idx _ _ _ related)⟩
  | lvalueDeref _ ih =>
    obtain ⟨_, path, agree⟩ := ih
    cases agree
    exact ⟨_, .lvalueDeref path, .expr (keep.deref _)⟩
  | listOne _ ih =>
    obtain ⟨_, one, agree⟩ := ih
    cases agree with
    | expr related => exact ⟨_, .listOne one, .list (.cons related .nil)⟩
  | listMore _ _ ih₁ ih₂ =>
    obtain ⟨_, list, agree⟩ := ih₁
    cases agree with
    | list others =>
      obtain ⟨_, last, agree⟩ := ih₂
      cases agree with
      | expr related =>
        exact ⟨_, .listMore list last, .list (List.rel_append others (.cons related .nil))⟩
  | listEmpty => exact ⟨_, .listEmpty, .list .nil⟩
  | expressionSimple _ ih =>
    obtain ⟨_, simple, agree⟩ := ih
    cases agree with
    | expr related => exact ⟨_, .expressionSimple simple, .expr related⟩
  | expressionRelop _ operator _ ih₁ ih₂ =>
    obtain ⟨_, left, agree⟩ := ih₁
    cases agree with
    | expr first =>
      obtain ⟨_, right, agree⟩ := ih₂
      cases agree with
      | expr second =>
        exact ⟨_, .expressionRelop left operator right, .expr (keep.bin _ _ _ _ _ first second)⟩
  | simpleTerm _ ih =>
    obtain ⟨_, term, agree⟩ := ih
    cases agree with
    | expr related => exact ⟨_, .simpleTerm term, .expr related⟩
  | simpleSign operator _ ih =>
    obtain ⟨_, term, agree⟩ := ih
    cases agree with
    | expr related => exact ⟨_, .simpleSign operator term, .expr (keep.un _ _ _ related)⟩
  | simpleAddop _ operator _ ih₁ ih₂ =>
    obtain ⟨_, left, agree⟩ := ih₁
    cases agree with
    | expr first =>
      obtain ⟨_, right, agree⟩ := ih₂
      cases agree with
      | expr second =>
        exact ⟨_, .simpleAddop left operator right, .expr (keep.bin _ _ _ _ _ first second)⟩
  | termFactor _ ih =>
    obtain ⟨_, factor, agree⟩ := ih
    cases agree with
    | expr related => exact ⟨_, .termFactor factor, .expr related⟩
  | termMulop _ operator _ ih₁ ih₂ =>
    obtain ⟨_, left, agree⟩ := ih₁
    cases agree with
    | expr first =>
      obtain ⟨_, right, agree⟩ := ih₂
      cases agree with
      | expr second =>
        exact ⟨_, .termMulop left operator right, .expr (keep.bin _ _ _ _ _ first second)⟩
  | factorCall _ _ ih₁ ih₂ =>
    obtain ⟨_, path, agree⟩ := ih₁
    cases agree
    obtain ⟨_, args, agree⟩ := ih₂
    cases agree with
    | list related => exact ⟨_, .factorCall path args, .expr (keep.app _ _ _ related)⟩
  | factorNum => exact ⟨_, .factorNum, .expr (keep.lit _)⟩
  | factorParen _ ih =>
    obtain ⟨_, inside, agree⟩ := ih
    cases agree with
    | expr related => exact ⟨_, .factorParen inside, .expr (keep.paren _ _ related)⟩
  | factorNot _ ih =>
    obtain ⟨_, operand, agree⟩ := ih
    cases agree with
    | expr related => exact ⟨_, .factorNot operand, .expr (keep.un _ _ _ related)⟩
  | factorLvalue _ ih =>
    obtain ⟨_, lvalue, agree⟩ := ih
    cases agree with
    | expr related => exact ⟨_, .factorLvalue lvalue, .expr related⟩
  | factorAddrof _ ih =>
    obtain ⟨_, operand, agree⟩ := ih
    cases agree with
    | expr related => exact ⟨_, .factorAddrof operand, .expr (keep.addrof _ _ related)⟩

end

/-! ## Expressions with their parentheses -/

inductive Written where
  | app (name : AstPath) (args : List Written)
  | bin (op : Token) (left right : Written)
  | deref (p : AstPath)
  | idx (path : AstPath) (index : Written)
  | lit (spelling : Name)
  | path (path : AstPath)
  | un (op : Token) (operand : Written)
  | addrof (target : Written)
  | paren (inside : Written)

def writtenActions : Actions Written where
  app := .app
  bin := .bin
  deref := .deref
  idx := .idx
  lit := .lit
  path := .path
  un := .un
  addrof := .addrof
  paren := .paren

namespace Written

mutual

def erase : Written → AstExpr
  | app name args => .app name (eraseAll args)
  | bin op left right => .bin op left.erase right.erase
  | deref p => .deref (.path p)
  | idx p index => .idx p index.erase
  | lit s => .lit s
  | path p => .path p
  | un op operand => .un op operand.erase
  | addrof target => .addrof target.erase
  | paren inside => inside.erase

def eraseAll : List Written → List AstExpr
  | [] => []
  | w :: ws => w.erase :: eraseAll ws

end

theorem eraseAll_eq {es : List AstExpr} {ws : List Written}
    (all : List.Forall₂ (fun e w => w.erase = e) es ws) : eraseAll ws = es := by
  induction all with
  | nil => rfl
  | cons one _ ih => rw [eraseAll, one, ih]

theorem compatible_erase : Compatible astActions writtenActions fun e w => w.erase = e where
  app p es fs all := congrArg (AstExpr.app p) (eraseAll_eq all)
  bin op e e' f f' left right := by
    rw [← left, ← right]
    rfl
  deref p := rfl
  idx p e f index := by
    rw [← index]
    rfl
  lit n := rfl
  path p := rfl
  un op e f operand := by
    rw [← operand]
    rfl
  addrof e f target := by
    rw [← target]
    rfl
  paren e f inside := inside

def isAddop : Token → Bool
  | .plus | .minus | .or => true
  | _ => false

/-- How loosely the operator at the root binds: relational operators most, then additive ones and
signs, then multiplicative ones, then what a factor is made of. -/
def rank : Written → Nat
  | bin op _ _ => if isRelop op then 3 else if isAddop op then 2 else 1
  | un op _ => if op = .not then 0 else 2
  | _ => 0

/-- The nodes of an expression that are outside parentheses, brackets and argument lists. -/
def outer : Written → List Written
  | bin op left right => bin op left right :: (left.outer ++ right.outer)
  | un op operand => un op operand :: operand.outer
  | addrof target => addrof target :: target.outer
  | w => [w]

/-- Outside parentheses no operator binds more loosely. -/
def Within (k : Nat) (w : Written) : Prop := ∀ n ∈ w.outer, n.rank ≤ k

def Grouped : Written → Prop
  | bin op left right =>
      if isRelop op then Within 2 left ∧ Within 2 right
      else if isAddop op then Within 2 left ∧ Within 1 right
      else Within 1 left ∧ Within 0 right
  | un op operand => if op = .not then Within 0 operand else Within 1 operand
  | addrof target => Within 0 target
  | _ => True

mutual

/-- Every node is grouped so, also inside parentheses, brackets and argument lists. -/
def Conventional : Written → Prop
  | app _ args => AllConventional args
  | bin op left right => Grouped (bin op left right) ∧ left.Conventional ∧ right.Conventional
  | idx _ index => index.Conventional
  | un op operand => Grouped (un op operand) ∧ operand.Conventional
  | addrof target => Grouped (addrof target) ∧ target.Conventional
  | paren inside => inside.Conventional
  | deref _ | lit _ | path _ => True

def AllConventional : List Written → Prop
  | [] => True
  | w :: ws => w.Conventional ∧ AllConventional ws

end

theorem within_bin {k : Nat} {op : Token} {left right : Written} (root : (bin op left right).rank ≤ k)
    (first : left.Within k) (second : right.Within k) : (bin op left right).Within k := by
  intro n member
  rw [outer, List.mem_cons, List.mem_append] at member
  rcases member with rfl | member | member
  · exact root
  · exact first n member
  · exact second n member

theorem within_un {k : Nat} {op : Token} {operand : Written} (root : (un op operand).rank ≤ k)
    (inside : operand.Within k) : (un op operand).Within k := by
  intro n member
  rw [outer, List.mem_cons] at member
  rcases member with rfl | member
  · exact root
  · exact inside n member

theorem within_addrof {k : Nat} {target : Written} (inside : target.Within k) :
    (addrof target).Within k := by
  intro n member
  rw [outer, List.mem_cons] at member
  rcases member with rfl | member
  · exact Nat.zero_le k
  · exact inside n member

theorem Within.mono {k l : Nat} {w : Written} (within : w.Within k) (le : k ≤ l) : w.Within l :=
  fun n member => (within n member).trans le

theorem allConventional_append {ws : List Written} {w : Written} (all : AllConventional ws)
    (last : w.Conventional) : AllConventional (ws ++ [w]) := by
  induction ws with
  | nil => exact ⟨last, trivial⟩
  | cons v ws ih => exact ⟨all.1, ih all.2⟩

end Written

open Written

theorem isRelop_of_relop {t : Terminal} {op : Token} (operator : relop t = some op) :
    isRelop op = true := by
  unfold relop at operator
  split at operator <;> cases operator <;> rfl

theorem isAddop_of_addop {t : Terminal} {op : Token} (operator : addop t = some op) :
    isRelop op = false ∧ isAddop op = true := by
  unfold addop at operator
  split at operator <;> cases operator <;> exact ⟨rfl, rfl⟩

theorem isAddop_of_mulop {t : Terminal} {op : Token} (operator : mulop t = some op) :
    isRelop op = false ∧ isAddop op = false := by
  unfold mulop at operator
  split at operator <;> cases operator <;> exact ⟨rfl, rfl⟩

theorem ne_not_of_sign {t : Terminal} {op : Token} (operator : sign t = some op) : op ≠ .not := by
  unfold sign at operator
  split at operator <;> cases operator <;> decide

/-- The loosest operator outside parentheses. -/
def Symbol.level : Symbol → Nat
  | .expression => 3
  | .simpleExpression => 2
  | .term => 1
  | .path | .lvalue | .factor | .expressionList => 0

def Shaped (s : Symbol) : Value Written → Prop
  | .path _ => True
  | .expr w => w.Within s.level ∧ w.Conventional
  | .list ws => AllConventional ws

theorem Derives.shaped {s : Symbol} {ts : List Terminal} {v : Value Written}
    (derived : Derives writtenActions s ts v) : Shaped s v := by
  have leaf : ∀ {k : Nat} {w : Written}, w.outer = [w] → w.rank = 0 → w.Within k := by
    intro k w alone zero n member
    rw [alone, List.mem_singleton] at member
    rw [member, zero]
    exact Nat.zero_le k
  induction derived with
  | pathField => trivial
  | pathName => trivial
  | lvaluePath => exact ⟨leaf rfl rfl, trivial⟩
  | lvalueIndex _ _ _ ih => exact ⟨leaf rfl rfl, ih.2⟩
  | lvalueDeref => exact ⟨leaf rfl rfl, trivial⟩
  | listOne _ ih => exact ⟨ih.2, trivial⟩
  | listMore _ _ ih₁ ih₂ => exact allConventional_append ih₁ ih₂.2
  | listEmpty => trivial
  | expressionSimple _ ih => exact ⟨ih.1.mono (by decide), ih.2⟩
  | expressionRelop _ operator _ ih₁ ih₂ =>
    have relational := isRelop_of_relop operator
    constructor
    · apply within_bin
      · simp [rank, relational, Symbol.level]
      · exact ih₁.1.mono (by decide)
      · exact ih₂.1.mono (by decide)
    · refine ⟨?_, ih₁.2, ih₂.2⟩
      rw [Grouped, if_pos relational]
      exact ⟨ih₁.1, ih₂.1⟩
  | simpleTerm _ ih => exact ⟨ih.1.mono (by decide), ih.2⟩
  | simpleSign operator _ ih =>
    have other := ne_not_of_sign operator
    constructor
    · apply within_un
      · simp [rank, other, Symbol.level]
      · exact ih.1.mono (by decide)
    · refine ⟨?_, ih.2⟩
      rw [Grouped, if_neg other]
      exact ih.1
  | simpleAddop _ operator _ ih₁ ih₂ =>
    obtain ⟨notRelational, additive⟩ := isAddop_of_addop operator
    constructor
    · apply within_bin
      · simp [rank, notRelational, additive, Symbol.level]
      · exact ih₁.1
      · exact ih₂.1.mono (by decide)
    · refine ⟨?_, ih₁.2, ih₂.2⟩
      rw [Grouped, notRelational, additive]
      exact ⟨ih₁.1, ih₂.1⟩
  | termFactor _ ih => exact ⟨ih.1.mono (by decide), ih.2⟩
  | termMulop _ operator _ ih₁ ih₂ =>
    obtain ⟨notRelational, notAdditive⟩ := isAddop_of_mulop operator
    constructor
    · apply within_bin
      · simp [rank, notRelational, notAdditive, Symbol.level]
      · exact ih₁.1
      · exact ih₂.1.mono (by decide)
    · refine ⟨?_, ih₁.2, ih₂.2⟩
      rw [Grouped, notRelational, notAdditive]
      exact ⟨ih₁.1, ih₂.1⟩
  | factorCall _ _ _ ih => exact ⟨leaf rfl rfl, ih⟩
  | factorNum => exact ⟨leaf rfl rfl, trivial⟩
  | factorParen _ ih => exact ⟨leaf rfl rfl, ih.2⟩
  | factorNot _ ih => exact ⟨within_un (Nat.le_refl 0) ih.1, ih.1, ih.2⟩
  | factorLvalue _ ih => exact ih
  | factorAddrof _ ih => exact ⟨within_addrof ih.1, ih.1, ih.2⟩

/-- A token sequence is the text of at most one expression, and with its parentheses that
expression is grouped by the conventional precedences. -/
theorem expression_unambiguous {ts : List Terminal} {e : AstExpr}
    (derived : Derives astActions .expression ts (.expr e)) :
    (∀ e', Derives astActions .expression ts (.expr e') → e' = e) ∧
      ∃ w, Derives writtenActions .expression ts (.expr w) ∧ w.erase = e ∧ w.Conventional ∧
        ∀ w', Derives writtenActions .expression ts (.expr w') → w' = w := by
  have ends : Clear isOperator [] := by
    intro t member
    cases member
  constructor
  · intro e' derived'
    obtain ⟨same, -⟩ := derived'.expression_unique derived rfl ends ends
    exact Value.expr.inj same
  · obtain ⟨_, written, agree⟩ := derived.agree compatible_erase
    cases agree with
    | @expr _ w erased =>
      refine ⟨w, written, erased, written.shaped.2, ?_⟩
      intro w' written'
      obtain ⟨same, -⟩ := written'.expression_unique written rfl ends ends
      exact Value.expr.inj same

-- -a*b is the negated product, and -a+b the sum of the negated a and b.
theorem signed_unambiguous :
    (∀ e', Derives astActions .expression [.char '-', .ID "a", .char '*', .ID "b"] (.expr e') →
      e' = .un .minus (.bin .star (.path (astPath "a")) (.path (astPath "b")))) ∧
    (∀ e', Derives astActions .expression [.char '-', .ID "a", .char '+', .ID "b"] (.expr e') →
      e' = .bin .plus (.un .minus (.path (astPath "a"))) (.path (astPath "b"))) := by
  have factor : ∀ n, Derives astActions .factor [.ID n] (.expr (.path (astPath n))) :=
    fun n => .factorLvalue (.lvaluePath .pathName)
  have product := Derives.termMulop (.termFactor (factor "a")) (show mulop (.char '*') = _ from rfl)
    (factor "b")
  have negated := Derives.simpleSign (show sign (.char '-') = _ from rfl) (.termFactor (factor "a"))
  have sum := Derives.simpleAddop negated (show addop (.char '+') = _ from rfl)
    (.termFactor (factor "b"))
  have first := Derives.simpleSign (show sign (.char '-') = _ from rfl) product
  exact ⟨(expression_unambiguous (.expressionSimple first)).1,
    (expression_unambiguous (.expressionSimple sum)).1⟩

end Dragon
