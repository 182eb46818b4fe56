import Dragon.Parser.Declarations

/-! Subprograms and the program.

The parser takes a token sequence just when the productions derive it, with the
precedence of ELSE, and then they derive one program from it.
-/

set_option autoImplicit false

namespace Dragon

open Readers

/-- The tree of ast_program; its name takes no part in the analysis. -/
structure NamedProgram extends AstProgram where
  name : Name

/-! ## The productions -/

/-- compound_statement; a NULL body comes from an empty one. -/
def CompoundText (ts : List Terminal) (body : AstStmt) : Prop :=
  ∃ us, ts = .TBEGIN :: us ∧ BlockText us body

inductive SubprogramSymbol where
  | declaration | declarations
  deriving DecidableEq, Repr

inductive SubprogramValue where
  | one (d : AstSubdecl)
  | list (ds : List AstSubdecl)

/-- The productions of subprogram_declaration and subprogram_declarations. -/
inductive SubprogramDerives : SubprogramSymbol → List Terminal → SubprogramValue → Prop where
  | function {n : Name} {ts us vs ws xs : List Terminal} {t : Terminal} {args : List AstDecls}
      {retty : AstType} {subprogs : List AstSubdecl} {types : List AstTypeDecl}
      {decls : List AstDecls} {body : AstStmt} (formals : ArgumentsText ts args)
      (result : standardType t = some retty)
      (inner : SubprogramDerives .declarations us (.list subprogs))
      (typeDecls : Many TypeDeclText vs types) (vars : Many DeclsText ws decls)
      (compound : CompoundText xs body) :
      SubprogramDerives .declaration
        (.FUNCTION :: .ID n :: (ts ++ .char ':' :: t :: .char ';' :: (us ++ (vs ++ (ws ++ xs)))))
        (.one (.mk ⟨.function, args, some retty⟩ n decls subprogs types body))
  | procedure {n : Name} {ts us vs ws xs : List Terminal} {args : List AstDecls}
      {subprogs : List AstSubdecl} {types : List AstTypeDecl} {decls : List AstDecls}
      {body : AstStmt} (formals : ArgumentsText ts args)
      (inner : SubprogramDerives .declarations us (.list subprogs))
      (typeDecls : Many TypeDeclText vs types) (vars : Many DeclsText ws decls)
      (compound : CompoundText xs body) :
      SubprogramDerives .declaration
        (.PROCEDURE :: .ID n :: (ts ++ .char ';' :: (us ++ (vs ++ (ws ++ xs)))))
        (.one (.mk ⟨.procedure, args, none⟩ n decls subprogs types body))
  | more {ts us : List Terminal} {ds : List AstSubdecl} {d : AstSubdecl}
      (others : SubprogramDerives .declarations ts (.list ds))
      (last : SubprogramDerives .declaration us (.one d)) :
      SubprogramDerives .declarations (ts ++ (us ++ [.char ';'])) (.list (ds ++ [d]))
  | none : SubprogramDerives .declarations [] (.list [])

def SubprogramText (ts : List Terminal) (d : AstSubdecl) : Prop :=
  ∃ us, ts = us ++ [.char ';'] ∧ SubprogramDerives .declaration us (.one d)

theorem subprograms_iff {ts : List Terminal} {ds : List AstSubdecl} :
    SubprogramDerives .declarations ts (.list ds) ↔ Many SubprogramText ts ds := by
  constructor
  · intro derived
    generalize symbol : SubprogramSymbol.declarations = s at derived
    generalize value : SubprogramValue.list ds = v at derived
    induction derived generalizing ds with
    | more _ last ih =>
      cases value
      exact .more (ih symbol rfl) ⟨_, rfl, last⟩
    | none =>
      cases value
      exact .none
    | _ => cases symbol
  · intro list
    induction list with
    | none => exact .none
    | more _ last ih =>
      obtain ⟨us, rfl, one⟩ := last
      exact .more ih one

inductive ProgramDerives : List Terminal → NamedProgram → Prop where
  | program {n : Name} {ts us vs ws xs : List Terminal} {args : List Name}
      {types : List AstTypeDecl} {decls : List AstDecls} {subprogs : List AstSubdecl}
      {body : AstStmt} (imports : OptionalIdentifierList ts args)
      (typeDecls : Many TypeDeclText us types) (vars : Many DeclsText vs decls)
      (inner : SubprogramDerives .declarations ws (.list subprogs))
      (compound : CompoundText xs body) :
      ProgramDerives (.PROGRAM :: .ID n :: .char '(' :: (ts ++ .char ')' :: .char ';' ::
        (us ++ (vs ++ (ws ++ (xs ++ [.char '.']))))))
        ⟨⟨args, decls, subprogs, types, body⟩, n⟩

/-! ## The readers -/

def readCompound (n : Nat) : Reader Terminal AstStmt := do
  token .TBEGIN
  readBlock (readStatement n) n

def isSubprogram : Terminal → Bool
  | .FUNCTION | .PROCEDURE => true
  | _ => false

def readTypeDecls (n : Nat) : Reader Terminal (List AstTypeDecl) :=
  many (decide <| · = .TYPE) (readTypeDecl n) n

def readVariables (n : Nat) : Reader Terminal (List AstDecls) :=
  many (decide <| · = .VAR) (readDecls n) n

def readSubprograms (subprogram : Reader Terminal AstSubdecl) (n : Nat) :
    Reader Terminal (List AstSubdecl) :=
  many isSubprogram (do let d ← subprogram; token (.char ';'); return d) n

/-- The declarations and the body of a subprogram, after its head. -/
def readBody (subprogram : Reader Terminal AstSubdecl) (n : Nat) (sig : AstSig) (name : Name) :
    Reader Terminal AstSubdecl := do
  token (.char ';')
  let subprogs ← readSubprograms subprogram n
  let types ← readTypeDecls n
  let decls ← readVariables n
  let body ← readCompound n
  return .mk sig name decls subprogs types body

def readSubprogram : Nat → Reader Terminal AstSubdecl
  | 0, _ => none
  | n + 1, s =>
    match s with
    | .FUNCTION :: s =>
      (do let name ← one identifierOf
          let args ← readFormals n
          token (.char ':')
          let retty ← one standardType
          readBody (readSubprogram n) n ⟨.function, args, some retty⟩ name :
        Reader Terminal AstSubdecl) s
    | .PROCEDURE :: s =>
      (do let name ← one identifierOf
          let args ← readFormals n
          readBody (readSubprogram n) n ⟨.procedure, args, none⟩ name :
        Reader Terminal AstSubdecl) s
    | _ => none

def readImports (n : Nat) : Reader Terminal (List Name)
  | .ID name :: s => readNames n (.ID name :: s)
  | s => some ([], s)

def readProgram (n : Nat) : Reader Terminal NamedProgram := do
  token .PROGRAM
  let name ← one identifierOf
  token (.char '(')
  let args ← readImports n
  token (.char ')')
  token (.char ';')
  let types ← readTypeDecls n
  let decls ← readVariables n
  let subprogs ← readSubprograms (readSubprogram n) n
  let body ← readCompound n
  token (.char '.')
  return ⟨⟨args, decls, subprogs, types, body⟩, name⟩

/-- The tree of a token sequence, if it has one. -/
def yyparse (ts : List Terminal) : Option NamedProgram :=
  match readProgram (ts.length + 1) ts with
  | some (p, []) => some p
  | _ => none

/-! ## They are exact -/

theorem exact_compound {n : Nat} : Exact n (readCompound n) CompoundText Anything := by
  unfold readCompound
  exact (exact_block (statementReader n)).after .TBEGIN

theorem typeDecl_starts {ts : List Terminal} {d : AstTypeDecl} (text : TypeDeclText ts d) :
    ∃ us, ts = .TYPE :: us := by
  obtain ⟨us, rfl, -⟩ := text
  exact ⟨_, rfl⟩

theorem decls_starts {ts : List Terminal} {d : AstDecls} (text : DeclsText ts d) :
    ∃ us, ts = .VAR :: us := by
  obtain ⟨us, vs, rfl, -⟩ := text
  exact ⟨_, rfl⟩

theorem compound_starts {ts : List Terminal} {body : AstStmt} (text : CompoundText ts body) :
    ∃ us, ts = .TBEGIN :: us := by
  obtain ⟨us, rfl, -⟩ := text
  exact ⟨us, rfl⟩

theorem subprogram_starts {ts : List Terminal} {d : AstSubdecl}
    (derived : SubprogramDerives .declaration ts (.one d)) :
    ∃ t us, ts = t :: us ∧ isSubprogram t = true := by
  cases derived with
  | function => exact ⟨_, _, rfl, rfl⟩
  | procedure => exact ⟨_, _, rfl, rfl⟩

theorem exact_typeDecls {n : Nat} : Exact n (readTypeDecls n) (Many TypeDeclText)
    fun r => clear (decide <| · = .TYPE) r = true := by
  have starts : ∀ ts d, TypeDeclText ts d → ∃ t us, ts = t :: us ∧ decide (t = .TYPE) = true := by
    intro ts d text
    obtain ⟨us, rfl⟩ := typeDecl_starts text
    exact ⟨_, us, rfl, rfl⟩
  exact (exact_typeDecl.many _ starts fun _ _ => trivial).mono fun _ ends => ⟨ends, trivial⟩

theorem exact_variables {n : Nat} : Exact n (readVariables n) (Many DeclsText)
    fun r => clear (decide <| · = .VAR) r = true := by
  have starts : ∀ ts d, DeclsText ts d → ∃ t us, ts = t :: us ∧ decide (t = .VAR) = true := by
    intro ts d text
    obtain ⟨us, rfl⟩ := decls_starts text
    exact ⟨_, us, rfl, rfl⟩
  exact (exact_decls.many _ starts fun _ _ => trivial).mono fun _ ends => ⟨ends, trivial⟩

/-! What starts with none of the tokens of a kind. -/

section

variable {kind : Terminal → Bool} {vs ws xs r : List Terminal} {types : List AstTypeDecl}
  {decls : List AstDecls} {body : AstStmt}

theorem clear_compound (compound : CompoundText xs body) (other : kind .TBEGIN = false) :
    clear kind (xs ++ r) = true := by
  obtain ⟨us, rfl⟩ := compound_starts compound
  rw [List.cons_append, clear_cons, other]
  rfl

theorem clear_variables (vars : Many DeclsText ws decls) (compound : CompoundText xs body)
    (other : kind .VAR = false) (other' : kind .TBEGIN = false) :
    clear kind (ws ++ (xs ++ r)) = true := by
  refine vars.clear (fun us d text => ?_) (clear_compound compound other')
  obtain ⟨us', rfl⟩ := decls_starts text
  exact ⟨_, us', rfl, other⟩

theorem clear_declarations (typeDecls : Many TypeDeclText vs types) (vars : Many DeclsText ws decls)
    (compound : CompoundText xs body) (other : kind .TYPE = false) (other' : kind .VAR = false)
    (other'' : kind .TBEGIN = false) : clear kind (vs ++ (ws ++ (xs ++ r))) = true := by
  refine typeDecls.clear (fun us d text => ?_) (clear_variables vars compound other' other'')
  obtain ⟨us', rfl⟩ := typeDecl_starts text
  exact ⟨_, us', rfl, other⟩

end

theorem exact_subprograms {n : Nat} {subprogram : Reader Terminal AstSubdecl}
    (exact : Exact n subprogram (fun ts d => SubprogramDerives .declaration ts (.one d)) Anything) :
    Exact n (readSubprograms subprogram n) (Many SubprogramText)
      fun r => clear isSubprogram r = true := by
  have item : Exact n (do let d ← subprogram; token (.char ';'); return d) SubprogramText
      Anything := by
    constructor
    · intro s r v taken
      obtain ⟨d, s₁, one, rest⟩ := bind_eq_some.mp taken
      obtain ⟨_, s₂, semicolon, finish⟩ := bind_eq_some.mp rest
      obtain ⟨rfl, rfl⟩ := pure_eq_some.mp finish
      obtain rfl := token_eq_some.mp semicolon
      obtain ⟨ts, rfl, inside⟩ := exact.sound one
      exact ⟨ts ++ [.char ';'], by simp, ts, rfl, inside⟩
    · rintro ts r d ⟨us, rfl, inside⟩ short -
      rw [List.length_append] at short
      have one := exact.complete inside (r := .char ';' :: r) (by omega) trivial
      rw [List.append_assoc, List.cons_append, List.nil_append, bind_of_some one,
        bind_of_some (token_cons ..)]
      rfl
  have starts : ∀ ts d, SubprogramText ts d → ∃ t us, ts = t :: us ∧ isSubprogram t = true := by
    rintro ts d ⟨us, rfl, inside⟩
    obtain ⟨t, us', rfl, here⟩ := subprogram_starts inside
    exact ⟨t, us' ++ [.char ';'], rfl, here⟩
  exact (item.many _ starts fun _ _ => trivial).mono fun _ ends => ⟨ends, trivial⟩

def BodyText (sig : AstSig) (name : Name) (ts : List Terminal) (d : AstSubdecl) : Prop :=
  ∃ us vs ws xs subprogs types decls body, ts = .char ';' :: (us ++ (vs ++ (ws ++ xs))) ∧
    Many SubprogramText us subprogs ∧ Many TypeDeclText vs types ∧ Many DeclsText ws decls ∧
    CompoundText xs body ∧ d = .mk sig name decls subprogs types body

theorem exact_body {n : Nat} {subprogram : Reader Terminal AstSubdecl} {sig : AstSig} {name : Name}
    (exact : Exact n subprogram (fun ts d => SubprogramDerives .declaration ts (.one d)) Anything) :
    Exact n (readBody subprogram n sig name) (BodyText sig name) Anything where
  sound taken := by
    obtain ⟨_, s₁, semicolon, rest⟩ := bind_eq_some.mp taken
    obtain ⟨subprogs, s₂, inner, rest⟩ := bind_eq_some.mp rest
    obtain ⟨types, s₃, typeDecls, rest⟩ := bind_eq_some.mp rest
    obtain ⟨decls, s₄, vars, rest⟩ := bind_eq_some.mp rest
    obtain ⟨body, s₅, compound, finish⟩ := bind_eq_some.mp rest
    obtain ⟨rfl, rfl⟩ := pure_eq_some.mp finish
    obtain rfl := token_eq_some.mp semicolon
    obtain ⟨us, rfl, inside₁⟩ := (exact_subprograms exact).sound inner
    obtain ⟨vs, rfl, inside₂⟩ := (exact_typeDecls (n := n)).sound typeDecls
    obtain ⟨ws, rfl, inside₃⟩ := (exact_variables (n := n)).sound vars
    obtain ⟨xs, rfl, inside₄⟩ := (exact_compound (n := n)).sound compound
    exact ⟨_, by simp, us, vs, ws, xs, subprogs, types, decls, body, rfl, inside₁, inside₂, inside₃,
      inside₄, rfl⟩
  complete := by
    rintro ts r _ ⟨us, vs, ws, xs, subprogs, types, decls, body, rfl, inside₁, inside₂, inside₃,
      inside₄, rfl⟩ short -
    simp only [List.length_cons, List.length_append] at short
    have inner := (exact_subprograms exact).complete inside₁ (r := vs ++ (ws ++ (xs ++ r))) (by omega)
      (clear_declarations inside₂ inside₃ inside₄ rfl rfl rfl)
    have typeDecls := exact_typeDecls.complete (n := n) inside₂ (r := ws ++ (xs ++ r)) (by omega)
      (clear_variables inside₃ inside₄ rfl rfl)
    have vars := exact_variables.complete (n := n) inside₃ (r := xs ++ r) (by omega)
      (clear_compound inside₄ rfl)
    have compound := exact_compound.complete (n := n) inside₄ (r := r) (by omega) trivial
    have next : .char ';' :: (us ++ (vs ++ (ws ++ xs))) ++ r =
        .char ';' :: (us ++ (vs ++ (ws ++ (xs ++ r)))) := by simp
    rw [next, readBody, bind_of_some (token_cons ..), bind_of_some inner, bind_of_some typeDecls,
      bind_of_some vars, bind_of_some compound]
    rfl

theorem exact_subprogram (n : Nat) : Exact n (readSubprogram n)
    (fun ts d => SubprogramDerives .declaration ts (.one d)) Anything := by
  induction n with
  | zero =>
    constructor
    · intro s r v taken
      cases taken
    · intro ts r v _ short
      exact absurd short (Nat.not_lt_zero _)
  | succ n ih =>
    constructor
    · intro s r v taken
      unfold readSubprogram at taken
      split at taken
      · obtain ⟨name, s₁, first, rest⟩ := bind_eq_some.mp taken
        obtain ⟨args, s₂, formals, rest⟩ := bind_eq_some.mp rest
        obtain ⟨_, s₃, colon, rest⟩ := bind_eq_some.mp rest
        obtain ⟨retty, s₄, result, after⟩ := bind_eq_some.mp rest
        obtain rfl := name_eq_some.mp first
        obtain ⟨ts, rfl, inside⟩ := (exact_formals (n := n)).sound formals
        obtain rfl := token_eq_some.mp colon
        obtain ⟨t, rfl, here⟩ := one_eq_some.mp result
        obtain ⟨_, rfl, us, vs, ws, xs, subprogs, types, decls, body, rfl, inner, typeDecls, vars,
          compound, rfl⟩ := (exact_body ih).sound after
        exact ⟨_, by simp, .function inside here (subprograms_iff.mpr inner) typeDecls vars compound⟩
      · obtain ⟨name, s₁, first, rest⟩ := bind_eq_some.mp taken
        obtain ⟨args, s₂, formals, after⟩ := bind_eq_some.mp rest
        obtain rfl := name_eq_some.mp first
        obtain ⟨ts, rfl, inside⟩ := (exact_formals (n := n)).sound formals
        obtain ⟨_, rfl, us, vs, ws, xs, subprogs, types, decls, body, rfl, inner, typeDecls, vars,
          compound, rfl⟩ := (exact_body ih).sound after
        exact ⟨_, by simp, .procedure inside (subprograms_iff.mpr inner) typeDecls vars compound⟩
      · cases taken
    · intro ts r v derived short _
      cases derived with
      | @function name ts us vs ws xs t args retty subprogs types decls body inside here inner
          typeDecls vars compound =>
        simp only [List.length_cons, List.length_append] at short
        have text : BodyText ⟨.function, args, some retty⟩ name
            (.char ';' :: (us ++ (vs ++ (ws ++ xs)))) _ :=
          ⟨us, vs, ws, xs, subprogs, types, decls, body, rfl, subprograms_iff.mp inner, typeDecls,
            vars, compound, rfl⟩
        have after := (exact_body ih).complete text (r := r)
          (by simp only [List.length_cons, List.length_append]; omega) trivial
        have formals := exact_formals.complete (n := n) inside
          (r := .char ':' :: t :: (.char ';' :: (us ++ (vs ++ (ws ++ xs))) ++ r)) (by omega) rfl
        have next : .FUNCTION :: .ID name ::
            (ts ++ .char ':' :: t :: .char ';' :: (us ++ (vs ++ (ws ++ xs)))) ++ r =
            .FUNCTION :: .ID name ::
              (ts ++ .char ':' :: t :: (.char ';' :: (us ++ (vs ++ (ws ++ xs))) ++ r)) := by simp
        rw [next, readSubprogram, bind_of_some (name_eq_some.mpr rfl), bind_of_some formals,
          bind_of_some (token_cons ..), bind_of_some (one_eq_some.mpr ⟨t, rfl, here⟩)]
        exact after
      | @procedure name ts us vs ws xs args subprogs types decls body inside inner typeDecls vars
          compound =>
        simp only [List.length_cons, List.length_append] at short
        have text : BodyText ⟨.procedure, args, none⟩ name
            (.char ';' :: (us ++ (vs ++ (ws ++ xs)))) _ :=
          ⟨us, vs, ws, xs, subprogs, types, decls, body, rfl, subprograms_iff.mp inner, typeDecls,
            vars, compound, rfl⟩
        have after := (exact_body ih).complete text (r := r)
          (by simp only [List.length_cons, List.length_append]; omega) trivial
        have formals := exact_formals.complete (n := n) inside
          (r := .char ';' :: (us ++ (vs ++ (ws ++ xs))) ++ r) (by omega) rfl
        have next : .PROCEDURE :: .ID name :: (ts ++ .char ';' :: (us ++ (vs ++ (ws ++ xs)))) ++ r =
            .PROCEDURE :: .ID name :: (ts ++ (.char ';' :: (us ++ (vs ++ (ws ++ xs))) ++ r)) := by simp
        rw [next, readSubprogram, bind_of_some (name_eq_some.mpr rfl), bind_of_some formals]
        exact after

theorem exact_imports {n : Nat} : Exact n (readImports n) OptionalIdentifierList
    fun r => ∃ s, r = .char ')' :: s where
  sound taken := by
  -- the imports end at a closing parenthesis
    unfold readImports at taken
    split at taken
    · obtain ⟨ts, same, list⟩ := (exact_names (n := n)).sound taken
      exact ⟨ts, same, .inl list⟩
    · cases taken
      exact ⟨[], rfl, .inr ⟨rfl, rfl⟩⟩
  complete := by
    rintro ts _ v text short ⟨s, rfl⟩
    rcases text with list | ⟨rfl, rfl⟩
    · obtain ⟨us, vs, name, names, rfl, rfl, rfl, others⟩ := separated_iff.mp list
      exact exact_names.complete list short rfl
    · rfl

theorem exact_program {n : Nat} : Exact n (readProgram n) ProgramDerives Anything where
  sound taken := by
    obtain ⟨_, s₁, program, rest⟩ := bind_eq_some.mp taken
    obtain ⟨name, s₂, first, rest⟩ := bind_eq_some.mp rest
    obtain ⟨_, s₃, opening, rest⟩ := bind_eq_some.mp rest
    obtain ⟨args, s₄, imports, rest⟩ := bind_eq_some.mp rest
    obtain ⟨_, s₅, closing, rest⟩ := bind_eq_some.mp rest
    obtain ⟨_, s₆, semicolon, rest⟩ := bind_eq_some.mp rest
    obtain ⟨types, s₇, typeDecls, rest⟩ := bind_eq_some.mp rest
    obtain ⟨decls, s₈, vars, rest⟩ := bind_eq_some.mp rest
    obtain ⟨subprogs, s₉, inner, rest⟩ := bind_eq_some.mp rest
    obtain ⟨body, s₁₀, compound, rest⟩ := bind_eq_some.mp rest
    obtain ⟨_, s₁₁, period, finish⟩ := bind_eq_some.mp rest
    obtain ⟨rfl, rfl⟩ := pure_eq_some.mp finish
    obtain rfl := token_eq_some.mp program
    obtain rfl := name_eq_some.mp first
    obtain rfl := token_eq_some.mp opening
    obtain ⟨ts, rfl, inside₁⟩ := (exact_imports (n := n)).sound imports
    obtain rfl := token_eq_some.mp closing
    obtain rfl := token_eq_some.mp semicolon
    obtain ⟨us, rfl, inside₂⟩ := (exact_typeDecls (n := n)).sound typeDecls
    obtain ⟨vs, rfl, inside₃⟩ := (exact_variables (n := n)).sound vars
    obtain ⟨ws, rfl, inside₄⟩ := (exact_subprograms (exact_subprogram n)).sound inner
    obtain ⟨xs, rfl, inside₅⟩ := (exact_compound (n := n)).sound compound
    obtain rfl := token_eq_some.mp period
    exact ⟨_, by simp, .program inside₁ inside₂ inside₃ (subprograms_iff.mpr inside₄) inside₅⟩
  complete := by
    rintro ts r p derived short -
    cases derived with
    | @program name ts us vs ws xs args types decls subprogs body inside₁ inside₂ inside₃ inside₄
        inside₅ =>
      simp only [List.length_cons, List.length_append] at short
      have imports := exact_imports.complete (n := n) inside₁ (r := .char ')' :: .char ';' ::
        (us ++ (vs ++ (ws ++ (xs ++ .char '.' :: r))))) (by omega) ⟨_, rfl⟩
      have starts : ∀ {kind : Terminal → Bool}, kind .FUNCTION = false → kind .PROCEDURE = false →
          kind .TBEGIN = false → clear kind (ws ++ (xs ++ .char '.' :: r)) = true := by
        intro kind function procedure begin_
        refine (subprograms_iff.mp inside₄).clear (fun zs d text => ?_)
          (clear_compound inside₅ begin_)
        obtain ⟨zs, rfl, one⟩ := text
        cases one with
        | function => exact ⟨_, _, rfl, function⟩
        | procedure => exact ⟨_, _, rfl, procedure⟩
      have typeDecls := exact_typeDecls.complete (n := n) inside₂
        (r := vs ++ (ws ++ (xs ++ .char '.' :: r))) (by omega)
        (inside₃.clear (fun zs d text => by
          obtain ⟨zs', rfl⟩ := decls_starts text
          exact ⟨_, zs', rfl, rfl⟩) (starts rfl rfl rfl))
      have vars := exact_variables.complete (n := n) inside₃ (r := ws ++ (xs ++ .char '.' :: r))
        (by omega) (starts rfl rfl rfl)
      have inner := (exact_subprograms (exact_subprogram n)).complete (subprograms_iff.mp inside₄)
        (r := xs ++ .char '.' :: r) (by omega) (clear_compound inside₅ rfl)
      have compound := exact_compound.complete (n := n) inside₅ (r := .char '.' :: r) (by omega)
        trivial
      have next : .PROGRAM :: .ID name :: .char '(' :: (ts ++ .char ')' :: .char ';' ::
          (us ++ (vs ++ (ws ++ (xs ++ [.char '.']))))) ++ r =
          .PROGRAM :: .ID name :: .char '(' :: (ts ++ .char ')' :: .char ';' ::
            (us ++ (vs ++ (ws ++ (xs ++ .char '.' :: r))))) := by simp
      rw [next, readProgram, bind_of_some (token_cons ..), bind_of_some (name_eq_some.mpr rfl),
        bind_of_some (token_cons ..), bind_of_some imports, bind_of_some (token_cons ..),
        bind_of_some (token_cons ..), bind_of_some typeDecls, bind_of_some vars, bind_of_some inner,
        bind_of_some compound, bind_of_some (token_cons ..)]
      rfl

-- A token sequence is parsed just when the productions derive a program from it.
theorem parses_iff {ts : List Terminal} {p : NamedProgram} :
    yyparse ts = some p ↔ ProgramDerives ts p := by
  constructor
  · intro parsed
    unfold yyparse at parsed
    split at parsed
    · next q taken =>
      cases parsed
      obtain ⟨us, same, derived⟩ := exact_program.sound taken
      rw [List.append_nil] at same
      rw [same]
      exact derived
    · cases parsed
  · intro derived
    have taken := exact_program.complete derived (r := []) (Nat.lt_succ_self ts.length) trivial
    rw [List.append_nil] at taken
    rw [yyparse, taken]

end Dragon
