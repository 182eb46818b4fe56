import Dragon.Parser.Statements

/-! Argument lists.

An expression_list is left recursive and can be empty. The empty list is also
what the recursion can start from, so a comma may come before the first
expression. Nothing else is accepted between the parentheses of a call, in an
expression or in a statement, but expressions with a comma between each two.
-/

set_option autoImplicit false

namespace Dragon

/-! ## Lists -/

/-- The text of an expression, with what the actions build. -/
structure Argument where
  text : List Terminal
  tree : AstExpr
  derived : Derives astActions .expression text (.expr tree)

/-- One or more expressions, a comma before each but the first. -/
def Separated (us : List Terminal) (es : List AstExpr) : Prop :=
  ∃ (first : Argument) (others : List Argument),
    us = first.text ++ others.flatMap (fun a => .char ',' :: a.text) ∧
      es = first.tree :: others.map Argument.tree

/-- Nothing, or expressions with commas between them. -/
def Listed (us : List Terminal) (es : List AstExpr) : Prop :=
  (us = [] ∧ es = []) ∨ Separated us es

theorem Separated.one {us : List Terminal} {e : AstExpr}
    (derived : Derives astActions .expression us (.expr e)) : Separated us [e] :=
  ⟨⟨us, e, derived⟩, [], by simp, rfl⟩

theorem Separated.more {us vs : List Terminal} {es : List AstExpr} {e : AstExpr}
    (separated : Separated us es) (last : Derives astActions .expression vs (.expr e)) :
    Separated (us ++ .char ',' :: vs) (es ++ [e]) := by
  obtain ⟨first, others, rfl, rfl⟩ := separated
  exact ⟨first, others ++ [⟨vs, e, last⟩], by simp, by simp⟩

/-- What an expression_list derives. -/
def ListedAs : Symbol → List Terminal → Value AstExpr → Prop
  | .expressionList, us, .list es =>
      Listed us es ∨ ∃ vs, us = .char ',' :: vs ∧ Separated vs es
  | _, _, _ => True

theorem Derives.listedAs {s : Symbol} {us : List Terminal} {v : Value AstExpr}
    (derived : Derives astActions s us v) : ListedAs s us v := by
  induction derived with
  | listOne one => exact .inl (.inr (.one one))
  | @listMore _ vs _ _ _ last ih =>
    rcases ih with (⟨rfl, rfl⟩ | separated) | ⟨ws, rfl, separated⟩
    -- the recursion starts from nothing: the comma is the first token
    · exact .inr ⟨vs, rfl, .one last⟩
    · exact .inl (.inr (separated.more last))
    · exact .inr ⟨_, rfl, separated.more last⟩
  | listEmpty => exact .inl (.inl ⟨rfl, rfl⟩)
  | _ => trivial

theorem Derives.others {ts : List Terminal} {es : List AstExpr}
    (start : Derives astActions .expressionList ts (.list es)) (others : List Argument) :
    Derives astActions .expressionList (ts ++ others.flatMap (fun a => .char ',' :: a.text))
      (.list (es ++ others.map Argument.tree)) := by
  induction others generalizing ts es with
  | nil => simpa using start
  | cons a others ih =>
    have longer := ih (.listMore start a.derived)
    simpa only [List.flatMap_cons, List.map_cons, List.append_assoc, List.cons_append,
      List.nil_append] using longer

theorem expressionList_iff {us : List Terminal} {es : List AstExpr} :
    Derives astActions .expressionList us (.list es) ↔
      Listed us es ∨ ∃ vs, us = .char ',' :: vs ∧ Separated vs es := by
  constructor
  · exact Derives.listedAs
  · rintro ((⟨rfl, rfl⟩ | ⟨first, others, rfl, rfl⟩) | ⟨_, rfl, first, others, rfl, rfl⟩)
    · exact .listEmpty
    · exact (Derives.listOne first.derived).others others
    · have start := Derives.listEmpty.listMore first.derived
      have whole := start.others others
      simpa only [List.append_assoc, List.cons_append, List.nil_append] using whole

theorem not_listed_comma {vs : List Terminal} {es : List AstExpr} :
    ¬Listed (.char ',' :: vs) es := by
  -- no list that starts with a comma has commas between its expressions only
  rintro (⟨impossible, -⟩ | ⟨first, others, same, -⟩)
  · cases impossible
  · obtain ⟨t, ts, start, operand⟩ := first.derived.begins (by decide)
    rw [start] at same
    cases same
    cases operand

/-! ## Calls -/

def callText (ps us : List Terminal) : List Terminal := ps ++ .char '(' :: (us ++ [.char ')'])

section

variable {E : Type} {A : Actions E}

theorem Clear.dot {s : List Terminal} (ends : Clear isSuffix s) : Clear (· == .char '.') s :=
  ends.mono fun _ => isSuffix_of_dot

theorem Derives.lvalue_apart {ps ts us s : List Terminal} {p : AstPath} {v : Value E}
    (path : Derives A .path ps (.path p)) (lvalue : Derives A .lvalue ts v) (ends : Clear isSuffix s) :
    ps ++ .char '(' :: us ≠ ts ++ s := by
  -- a path with a parenthesis after it is not the start of an lvalue that ends there
  intro same
  cases lvalue with
  | lvaluePath path' =>
    obtain ⟨-, rest⟩ := path.path_unique path' same (.of_not rfl) ends.dot
    rw [← rest] at ends
    cases ends.not
  | lvalueIndex path' =>
    rw [List.append_assoc] at same
    obtain ⟨-, rest⟩ := path.path_unique path' same (.of_not rfl) (.of_not rfl)
    cases rest
  | lvalueDeref path' =>
    rw [List.append_assoc] at same
    obtain ⟨-, rest⟩ := path.path_unique path' same (.of_not rfl) (.of_not rfl)
    cases rest

theorem Derives.callText_unique {ps ps' us us' : List Terminal} {p p' : AstPath}
    (path : Derives A .path ps (.path p)) (path' : Derives A .path ps' (.path p'))
    (same : callText ps us = callText ps' us') : p = p' ∧ us = us' := by
  -- the last parenthesis of two calls with the same tokens closes the same list
  obtain ⟨name, rest⟩ := path.path_unique path' same (.of_not rfl) (.of_not rfl)
  exact ⟨name, List.append_cancel_right (List.tail_eq_of_cons_eq rest)⟩

theorem factor_call_iff {ps us : List Terminal} {p : AstPath} {e : E}
    (path : Derives A .path ps (.path p)) :
    Derives A .factor (callText ps us) (.expr e) ↔
      ∃ es, Derives A .expressionList us (.list es) ∧ e = A.app p es := by
  constructor
  · intro derived
    have read := path.readAs (.char '(' :: (us ++ [.char ')'])) _ _ (.fieldsEnd (.of_not rfl))
    generalize same : callText ps us = text at derived
    rw [show ps ++ _ = text from same] at read
    cases derived with
    | factorCall path' args =>
      obtain ⟨rfl, rfl⟩ := path.callText_unique path' same
      exact ⟨_, args, rfl⟩
    | factorLvalue lvalue =>
      have whole := same.trans (List.append_nil text).symm
      refine (path.lvalue_apart lvalue ?_ whole).elim
      intro t member
      cases member
    | factorNum => cases read
    | factorParen => cases read
    | factorNot => cases read
    | factorAddrof => cases read
  · rintro ⟨es, args, rfl⟩
    exact .factorCall path args

end

open Written

theorem written_path {ps : List Terminal} {p : AstPath} (path : Derives astActions .path ps (.path p)) :
    Derives writtenActions .path ps (.path p) := by
  obtain ⟨_, written, agree⟩ := path.agree compatible_erase
  cases agree
  exact written

theorem statement_call_iff {ps us : List Terminal} {p : AstPath} {s : AstStmt}
    (path : Derives astActions .path ps (.path p)) :
    (∃ t : StmtTree, t.Derived ∧ t.tokens = callText ps us ∧ t.ast = s) ↔
      ∃ es, Derives astActions .expressionList us (.list es) ∧ s = .proc p es := by
  have name := written_path path
  constructor
  · rintro ⟨t, derived, same, rfl⟩
    have read := name.readAs (.char '(' :: (us ++ [.char ')'])) _ _ (.fieldsEnd (.of_not rfl))
    rw [show ps ++ _ = t.tokens from same.symm] at read
    cases derived with
    | assign target => exact (name.lvalue_apart target (.of_not rfl) same.symm).elim
    | procName path' =>
      have whole := same.symm.trans (List.append_nil _).symm
      refine (name.lvalue_apart (.lvaluePath path') ?_ whole).elim
      intro t member
      cases member
    | @procCall _ _ _ ws path' args =>
      obtain ⟨rfl, rfl⟩ := name.callText_unique path' same.symm
      obtain ⟨_, erased, agree⟩ := args.agree compatible_erase.flip
      cases agree with
      | list related =>
        refine ⟨_, erased, ?_⟩
        rw [StmtTree.ast, eraseAll_eq related.flip]
    | _ => cases read
  · rintro ⟨es, args, rfl⟩
    obtain ⟨_, written, agree⟩ := args.agree compatible_erase
    cases agree with
    | list related =>
      refine ⟨_, .procCall name written, rfl, ?_⟩
      rw [StmtTree.ast, eraseAll_eq related]

/-! ## Commas -/

/-- The commas outside parentheses and brackets; the number is how many are open. -/
def outerCommas : Nat → List Terminal → Nat
  | _, [] => 0
  | n, .char '(' :: ts | n, .char '[' :: ts => outerCommas (n + 1) ts
  | n, .char ')' :: ts | n, .char ']' :: ts => outerCommas (n - 1) ts
  | n, .char ',' :: ts => (if n = 0 then 1 else 0) + outerCommas n ts
  | n, _ :: ts => outerCommas n ts

theorem outerCommas_relop {t : Terminal} {op : Token} (operator : relop t = some op) (n : Nat)
    (ts : List Terminal) : outerCommas n (t :: ts) = outerCommas n ts := by
  unfold relop at operator
  split at operator <;> first | rfl | cases operator

theorem outerCommas_addop {t : Terminal} {op : Token} (operator : addop t = some op) (n : Nat)
    (ts : List Terminal) : outerCommas n (t :: ts) = outerCommas n ts := by
  unfold addop at operator
  split at operator <;> first | rfl | cases operator

theorem outerCommas_mulop {t : Terminal} {op : Token} (operator : mulop t = some op) (n : Nat)
    (ts : List Terminal) : outerCommas n (t :: ts) = outerCommas n ts := by
  unfold mulop at operator
  split at operator <;> first | rfl | cases operator

theorem outerCommas_sign {t : Terminal} {op : Token} (operator : sign t = some op) (n : Nat)
    (ts : List Terminal) : outerCommas n (t :: ts) = outerCommas n ts := by
  unfold sign at operator
  split at operator <;> first | rfl | cases operator

-- What is derived closes what it opens, and only a list has commas of its own.
theorem Derives.outerCommas {E : Type} {A : Actions E} {s : Symbol} {ts : List Terminal} {v : Value E}
    (derived : Derives A s ts v) (n : Nat) (rest : List Terminal)
    (inside : s = .expressionList → n ≠ 0) :
    outerCommas n (ts ++ rest) = outerCommas n rest := by
  induction derived generalizing n rest with
  | pathField _ ih =>
    rw [List.append_assoc, ih n _ (by simp)]
    rfl
  | pathName => rfl
  | lvaluePath _ ih => exact ih n rest (by simp)
  | lvalueIndex _ _ ih₁ ih₂ =>
    rw [List.append_assoc, ih₁ n _ (by simp), List.cons_append, List.append_assoc]
    exact ih₂ (n + 1) _ (by simp)
  | lvalueDeref _ ih =>
    rw [List.append_assoc, ih n _ (by simp)]
    rfl
  | listOne _ ih => exact ih n rest (by simp)
  | listMore _ _ ih₁ ih₂ =>
    have open_ := inside rfl
    rw [List.append_assoc, ih₁ n _ inside, List.cons_append, Dragon.outerCommas, if_neg open_,
      Nat.zero_add]
    exact ih₂ n rest (by simp)
  | listEmpty => rfl
  | expressionSimple _ ih => exact ih n rest (by simp)
  | expressionRelop _ operator _ ih₁ ih₂ =>
    rw [List.append_assoc, ih₁ n _ (by simp), List.cons_append, outerCommas_relop operator]
    exact ih₂ n rest (by simp)
  | simpleTerm _ ih => exact ih n rest (by simp)
  | simpleSign operator _ ih =>
    rw [List.cons_append, outerCommas_sign operator]
    exact ih n rest (by simp)
  | simpleAddop _ operator _ ih₁ ih₂ =>
    rw [List.append_assoc, ih₁ n _ (by simp), List.cons_append, outerCommas_addop operator]
    exact ih₂ n rest (by simp)
  | termFactor _ ih => exact ih n rest (by simp)
  | termMulop _ operator _ ih₁ ih₂ =>
    rw [List.append_assoc, ih₁ n _ (by simp), List.cons_append, outerCommas_mulop operator]
    exact ih₂ n rest (by simp)
  | factorCall _ _ ih₁ ih₂ =>
    rw [List.append_assoc, ih₁ n _ (by simp), List.cons_append, List.append_assoc]
    exact ih₂ (n + 1) _ (by simp)
  | factorNum => rfl
  | factorParen _ ih =>
    rw [List.cons_append, List.append_assoc]
    exact ih (n + 1) _ (by simp)
  | factorNot _ ih => exact ih n rest (by simp)
  | factorLvalue _ ih => exact ih n rest (by simp)
  | factorAddrof _ ih => exact ih n rest (by simp)

theorem Separated.outerCommas {us : List Terminal} {es : List AstExpr}
    (separated : Separated us es) : es.length = outerCommas 0 us + 1 := by
  obtain ⟨first, others, rfl, rfl⟩ := separated
  rw [first.derived.outerCommas 0 _ (by simp), List.length_cons, List.length_map]
  congr 1
  induction others with
  | nil => rfl
  | cons a others ih =>
    rw [List.flatMap_cons, List.cons_append, Dragon.outerCommas, if_pos rfl,
      a.derived.outerCommas 0 _ (by simp), ← ih, List.length_cons, Nat.add_comm]

theorem Separated.ne_nil {us : List Terminal} {es : List AstExpr} (separated : Separated us es) :
    us ≠ [] := by
  obtain ⟨first, others, rfl, -⟩ := separated
  obtain ⟨t, ts, start, -⟩ := first.derived.begins (by decide)
  rw [start]
  exact List.cons_ne_nil _ _

/-! ## What is accepted -/

/-- How many arguments a text has by its commas. -/
def argumentCount (us : List Terminal) : Nat := if us = [] then 0 else outerCommas 0 us + 1

/-- Between the parentheses of a call stands nothing, or expressions with commas between them. These
are the arguments, in their order, and one more than there are commas. -/
structure ArgumentsRight (us : List Terminal) : Prop where
  factor : ∀ {ps : List Terminal} {p : AstPath}, Derives astActions .path ps (.path p) → ∀ e,
    Derives astActions .factor (callText ps us) (.expr e) ↔ ∃ es, Listed us es ∧ e = .app p es
  statement : ∀ {ps : List Terminal} {p : AstPath}, Derives astActions .path ps (.path p) → ∀ s,
    (∃ t : StmtTree, t.Derived ∧ t.tokens = callText ps us ∧ t.ast = s) ↔
      ∃ es, Listed us es ∧ s = .proc p es
  count : ∀ {ps : List Terminal} {p : AstPath} {es : List AstExpr},
    Derives astActions .path ps (.path p) →
      Derives astActions .factor (callText ps us) (.expr (.app p es)) → es.length = argumentCount us

/-- The text is a comma before a list. -/
def StartsWithComma (us : List Terminal) : Prop :=
  ∃ (vs : List Terminal) (es : List AstExpr), us = .char ',' :: vs ∧ Separated vs es

theorem Listed.count {us : List Terminal} {es : List AstExpr} (listed : Listed us es) :
    es.length = argumentCount us := by
  rcases listed with ⟨rfl, rfl⟩ | separated
  · rfl
  · rw [argumentCount, if_neg separated.ne_nil]
    exact separated.outerCommas

/-- The arguments are the ones between the commas, but where a comma comes before the first: that
is accepted, and the list is the one without it. -/
theorem argumentsRight_iff (us : List Terminal) : ArgumentsRight us ↔ ¬StartsWithComma us := by
  constructor
  · rintro right ⟨vs, es, rfl, separated⟩
    have path : Derives astActions .path [.ID "f"] (.path (astPath "f")) := .pathName
    have args := expressionList_iff.mpr (.inr ⟨vs, rfl, separated⟩)
    obtain ⟨_, listed, -⟩ := (right.factor path _).mp ((factor_call_iff path).mpr ⟨es, args, rfl⟩)
    exact not_listed_comma listed
  · intro plain
    have lists : ∀ es, Derives astActions .expressionList us (.list es) ↔ Listed us es := by
      intro es
      rw [expressionList_iff]
      constructor
      · rintro (listed | ⟨vs, rfl, separated⟩)
        · exact listed
        · exact (plain ⟨vs, es, rfl, separated⟩).elim
      · exact .inl
    constructor
    · intro ps p path e
      rw [factor_call_iff path]
      exact exists_congr fun es => and_congr_left' (lists es)
    · intro ps p path s
      rw [statement_call_iff path]
      exact exists_congr fun es => and_congr_left' (lists es)
    · intro ps p es path derived
      obtain ⟨es', args, same⟩ := (factor_call_iff path).mp derived
      cases same
      exact ((lists es).mp args).count

-- f(,a) is a call of f with one argument.
theorem not_forall_argumentsRight : ¬∀ us, ArgumentsRight us := by
  intro right
  have name : Derives astActions .expression [.ID "a"] (.expr (.path (astPath "a"))) :=
    .expressionSimple (.simpleTerm (.termFactor (.factorLvalue (.lvaluePath .pathName))))
  have args := Derives.listEmpty.listMore name
  have call := Derives.factorCall (.pathName : Derives astActions .path [.ID "f"] _) args
  obtain ⟨_, listed, -⟩ := ((right [.char ',', .ID "a"]).factor .pathName _).mp call
  exact not_listed_comma listed

end Dragon
