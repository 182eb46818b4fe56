import Dragon.Parser.Blocks

/-! The productions of parser.y for declarations, subprograms and the program.

A list of a left-recursive production is added to with list_add at its end.
Each symbol has a reader that goes by the next token.
-/

set_option autoImplicit false

namespace Dragon

open Readers

/-! ## Names and types -/

def IdentifierList : Language Terminal (List Name) :=
  SeparatedBy (.char ',') fun ts n => ts = [.ID n]

def OptionalIdentifierList (ts : List Terminal) (names : List Name) : Prop :=
  IdentifierList ts names ∨ (ts = [] ∧ names = [])

def standardType : Terminal → Option AstType
  | .INTEGER => some .integer
  | .REAL => some .real
  | .STRING => some .string
  | .BOOLEAN => some .boolean
  | .CHAR => some .char
  | _ => none

inductive TypeSymbol where
  | type | recordFields
  deriving DecidableEq, Repr

inductive TypeValue where
  | type (t : AstType)
  | fields (fs : List (Name × AstType))

/-- The productions of type and record_fields. -/
inductive TypeDerives : TypeSymbol → List Terminal → TypeValue → Prop where
  | standard {t : Terminal} {ty : AstType} (here : standardType t = some ty) :
      TypeDerives .type [t] (.type ty)
  | array {lower upper : Name} {t : Terminal} {elt : AstType} (here : standardType t = some elt) :
      TypeDerives .type [.ARRAY, .char '[', .NUM lower, .DOTDOT, .NUM upper, .char ']', .OF, t]
        (.type (.array lower upper elt))
  | pointer {ts : List Terminal} {ty : AstType} (target : TypeDerives .type ts (.type ty)) :
      TypeDerives .type (.char '^' :: ts) (.type (.pointer ty))
  | ref {n : Name} : TypeDerives .type [.ID n] (.type (.ref n))
  | record {ts : List Terminal} {fs : List (Name × AstType)}
      (fields : TypeDerives .recordFields ts (.fields fs)) :
      TypeDerives .type (.RECORD :: (ts ++ [.END])) (.type (.record fs))
  | fieldsMore {ts us : List Terminal} {fs : List (Name × AstType)} {n : Name} {ty : AstType}
      (fields : TypeDerives .recordFields ts (.fields fs)) (type : TypeDerives .type us (.type ty)) :
      TypeDerives .recordFields (ts ++ .ID n :: .char ':' :: (us ++ [.char ';']))
        (.fields (fs ++ [(n, ty)]))
  | fieldsEmpty : TypeDerives .recordFields [] (.fields [])

def TypeText (ts : List Terminal) (t : AstType) : Prop := TypeDerives .type ts (.type t)

def FieldText (ts : List Terminal) (f : Name × AstType) : Prop :=
  ∃ us, ts = .ID f.1 :: .char ':' :: (us ++ [.char ';']) ∧ TypeText us f.2

theorem fields_iff {ts : List Terminal} {fs : List (Name × AstType)} :
    TypeDerives .recordFields ts (.fields fs) ↔ Many FieldText ts fs := by
  constructor
  · intro derived
    generalize symbol : TypeSymbol.recordFields = s at derived
    generalize value : TypeValue.fields fs = v at derived
    induction derived generalizing fs with
    | fieldsMore _ type ih =>
      cases value
      exact .more (ih symbol rfl) ⟨_, rfl, type⟩
    | fieldsEmpty =>
      cases value
      exact .none
    | _ => cases symbol
  · intro list
    induction list with
    | none => exact .fieldsEmpty
    | more _ last ih =>
      obtain ⟨us, rfl, type⟩ := last
      exact .fieldsMore ih type

def readNames (n : Nat) : Reader Terminal (List Name) := separated (.char ',') (one identifierOf) n

def isIdentifier (t : Terminal) : Bool := (identifierOf t).isSome

/-- A field of a record, with a reader for its type. -/
def readField (type : Reader Terminal AstType) : Reader Terminal (Name × AstType) := do
  let name ← one identifierOf
  token (.char ':')
  let ty ← type
  token (.char ';')
  return (name, ty)

def readType : Nat → Reader Terminal AstType
  | 0, _ => none
  | n + 1, s =>
    match s with
    | .ARRAY :: s =>
      (do token (.char '[')
          let lower ← one numberOf
          token .DOTDOT
          let upper ← one numberOf
          token (.char ']')
          token .OF
          let elt ← one standardType
          return .array lower upper elt : Reader Terminal AstType) s
    | .char '^' :: s => (do let target ← readType n; return .pointer target : Reader Terminal AstType) s
    | .ID name :: s => some (.ref name, s)
    | .RECORD :: s =>
      (do let fields ← many isIdentifier (readField (readType n)) n
          token .END
          return .record fields : Reader Terminal AstType) s
    | s => one standardType s

theorem name_eq_some {s r : List Terminal} {n : Name} :
    one identifierOf s = some (n, r) ↔ s = .ID n :: r := by
  rw [one_eq_some]
  constructor
  · rintro ⟨t, rfl, here⟩
    rw [identifierOf_eq_some.mp here]
  · intro here
    exact ⟨_, here, identifierOf_eq_some.mpr rfl⟩

theorem number_eq_some {s r : List Terminal} {n : Name} :
    one numberOf s = some (n, r) ↔ s = .NUM n :: r := by
  rw [one_eq_some]
  constructor
  · rintro ⟨t, rfl, here⟩
    rw [numberOf_eq_some.mp here]
  · intro here
    exact ⟨_, here, numberOf_eq_some.mpr rfl⟩

theorem exact_name {n : Nat} :
    Exact n (one identifierOf) (fun ts name => ts = [.ID name]) Anything :=
  exact_one.congr fun ts name => by
    simp only [identifierOf_eq_some]
    exact ⟨by rintro ⟨t, rfl, rfl⟩; rfl, by rintro rfl; exact ⟨_, rfl, rfl⟩⟩

theorem exact_names {n : Nat} : Exact n (readNames n) IdentifierList
    fun r => clear (decide <| · = .char ',') r = true :=
  (exact_name.separated (.char ',') fun _ _ => trivial).mono fun _ ends => ⟨ends, trivial⟩

theorem exact_field {n : Nat} {type : Reader Terminal AstType}
    (exact : Exact n type TypeText Anything) : Exact n (readField type) FieldText Anything where
  sound taken := by
    obtain ⟨name, s₁, first, rest⟩ := bind_eq_some.mp taken
    obtain ⟨_, s₂, colon, rest⟩ := bind_eq_some.mp rest
    obtain ⟨ty, s₃, second, rest⟩ := bind_eq_some.mp rest
    obtain ⟨_, s₄, semicolon, finish⟩ := bind_eq_some.mp rest
    obtain ⟨rfl, rfl⟩ := pure_eq_some.mp finish
    obtain rfl := name_eq_some.mp first
    obtain rfl := token_eq_some.mp colon
    obtain ⟨us, rfl, inside⟩ := exact.sound second
    obtain rfl := token_eq_some.mp semicolon
    exact ⟨_, by simp, us, rfl, inside⟩
  complete := by
    rintro ts r ⟨name, ty⟩ ⟨us, rfl, inside⟩ short -
    simp only [List.length_cons, List.length_append] at short
    have type := exact.complete inside (r := .char ';' :: r) (by omega) trivial
    have next : .ID name :: .char ':' :: (us ++ [.char ';']) ++ r =
        .ID name :: .char ':' :: (us ++ .char ';' :: r) := by simp
    rw [next, readField, bind_of_some (name_eq_some.mpr rfl), bind_of_some (token_cons ..),
      bind_of_some type, bind_of_some (token_cons ..)]
    rfl

theorem field_starts {ts : List Terminal} {f : Name × AstType} (text : FieldText ts f) :
    ∃ t us, ts = t :: us ∧ isIdentifier t = true := by
  obtain ⟨us, rfl, -⟩ := text
  exact ⟨_, _, rfl, rfl⟩

theorem exact_type (n : Nat) : Exact n (readType n) TypeText Anything := by
  induction n with
  | zero =>
    constructor
    · intro s r v taken
      cases taken
    · intro ts r v _ short
      exact absurd short (Nat.not_lt_zero _)
  | succ n ih =>
    have fields := (exact_field ih).many isIdentifier (fun _ _ => field_starts)
      fun _ _ => trivial
    constructor
    · intro s r v taken
      unfold readType at taken
      split at taken
      · obtain ⟨_, s₁, bracket, rest⟩ := bind_eq_some.mp taken
        obtain ⟨lower, s₂, first, rest⟩ := bind_eq_some.mp rest
        obtain ⟨_, s₃, dots, rest⟩ := bind_eq_some.mp rest
        obtain ⟨upper, s₄, last, rest⟩ := bind_eq_some.mp rest
        obtain ⟨_, s₅, close, rest⟩ := bind_eq_some.mp rest
        obtain ⟨_, s₆, of_, rest⟩ := bind_eq_some.mp rest
        obtain ⟨elt, s₇, standard, finish⟩ := bind_eq_some.mp rest
        obtain ⟨rfl, rfl⟩ := pure_eq_some.mp finish
        obtain rfl := token_eq_some.mp bracket
        obtain rfl := number_eq_some.mp first
        obtain rfl := token_eq_some.mp dots
        obtain rfl := number_eq_some.mp last
        obtain rfl := token_eq_some.mp close
        obtain rfl := token_eq_some.mp of_
        obtain ⟨t, rfl, here⟩ := one_eq_some.mp standard
        exact ⟨_, rfl, .array here⟩
      · obtain ⟨target, s₁, type, finish⟩ := bind_eq_some.mp taken
        obtain ⟨rfl, rfl⟩ := pure_eq_some.mp finish
        obtain ⟨ts, rfl, inside⟩ := ih.sound type
        exact ⟨_ :: ts, rfl, .pointer inside⟩
      · cases taken
        exact ⟨[_], rfl, .ref⟩
      · obtain ⟨fs, s₁, list, rest⟩ := bind_eq_some.mp taken
        obtain ⟨_, s₂, close, finish⟩ := bind_eq_some.mp rest
        obtain ⟨rfl, rfl⟩ := pure_eq_some.mp finish
        obtain rfl := token_eq_some.mp close
        obtain ⟨ts, rfl, inside⟩ := fields.sound list
        exact ⟨_, by simp, .record (fields_iff.mpr inside)⟩
      · obtain ⟨t, rfl, here⟩ := one_eq_some.mp taken
        exact ⟨[t], rfl, .standard here⟩
    · intro ts r v text short _
      cases text with
      | @standard t ty here =>
        have alone : readType (n + 1) (t :: r) = one standardType (t :: r) := by
          cases t <;> first | rfl | cases here
        exact alone.trans (one_eq_some.mpr ⟨t, rfl, here⟩)
      | array here =>
        simp only [List.cons_append, List.nil_append]
        rw [readType, bind_of_some (token_cons ..), bind_of_some (number_eq_some.mpr rfl),
          bind_of_some (token_cons ..), bind_of_some (number_eq_some.mpr rfl),
          bind_of_some (token_cons ..), bind_of_some (token_cons ..),
          bind_of_some (one_eq_some.mpr ⟨_, rfl, here⟩)]
        rfl
      | pointer target =>
        exact bind_of_some (ih.complete target (Nat.lt_of_succ_lt_succ short) trivial)
      | ref => rfl
      | @record ts fs inside =>
        simp only [List.length_cons, List.length_append] at short
        have list := fields.complete (fields_iff.mp inside) (r := .END :: r) (by omega)
          ⟨clear_of_end rfl r, trivial⟩
        have next : .RECORD :: (ts ++ [.END]) ++ r = .RECORD :: (ts ++ .END :: r) := by simp
        rw [next, readType, bind_of_some list, bind_of_some (token_cons ..)]
        rfl

/-! ## Declarations -/

def TypeDeclText (ts : List Terminal) (d : AstTypeDecl) : Prop :=
  ∃ us, ts = .TYPE :: .ID d.name :: .char '=' :: (us ++ [.char ';']) ∧ TypeText us d.type

def DeclsText (ts : List Terminal) (d : AstDecls) : Prop :=
  ∃ us vs, ts = .VAR :: (us ++ .char ':' :: (vs ++ [.char ';'])) ∧ IdentifierList us d.names ∧
    TypeText vs d.type

def ParameterText (ts : List Terminal) (d : AstDecls) : Prop :=
  ∃ us vs, ts = us ++ .char ':' :: vs ∧ IdentifierList us d.names ∧ TypeText vs d.type

inductive ArgumentsText : List Terminal → List AstDecls → Prop where
  | list {ts : List Terminal} {ds : List AstDecls}
      (parameters : SeparatedBy (.char ';') ParameterText ts ds) :
      ArgumentsText (.char '(' :: (ts ++ [.char ')'])) ds
  | empty : ArgumentsText [] []

def readTypeDecl (n : Nat) : Reader Terminal AstTypeDecl := do
  token .TYPE
  let name ← one identifierOf
  token (.char '=')
  let ty ← readType n
  token (.char ';')
  return ⟨name, ty⟩

def readGroup (n : Nat) : Reader Terminal AstDecls := do
  let names ← readNames n
  token (.char ':')
  let ty ← readType n
  return ⟨names, ty⟩

def readDecls (n : Nat) : Reader Terminal AstDecls := do
  token .VAR
  let group ← readGroup n
  token (.char ';')
  return group

def readFormals (n : Nat) : Reader Terminal (List AstDecls)
  | .char '(' :: s =>
    (do let parameters ← separated (.char ';') (readGroup n) n
        token (.char ')')
        return parameters : Reader Terminal (List AstDecls)) s
  | s => some ([], s)

theorem exact_typeDecl {n : Nat} : Exact n (readTypeDecl n) TypeDeclText Anything where
  sound taken := by
    obtain ⟨_, s₁, type_, rest⟩ := bind_eq_some.mp taken
    obtain ⟨name, s₂, first, rest⟩ := bind_eq_some.mp rest
    obtain ⟨_, s₃, equals, rest⟩ := bind_eq_some.mp rest
    obtain ⟨ty, s₄, second, rest⟩ := bind_eq_some.mp rest
    obtain ⟨_, s₅, semicolon, finish⟩ := bind_eq_some.mp rest
    obtain ⟨rfl, rfl⟩ := pure_eq_some.mp finish
    obtain rfl := token_eq_some.mp type_
    obtain rfl := name_eq_some.mp first
    obtain rfl := token_eq_some.mp equals
    obtain ⟨us, rfl, inside⟩ := (exact_type n).sound second
    obtain rfl := token_eq_some.mp semicolon
    exact ⟨_, by simp, us, rfl, inside⟩
  complete := by
    rintro ts r ⟨name, ty⟩ ⟨us, rfl, inside⟩ short -
    simp only [List.length_cons, List.length_append] at short
    have type := (exact_type n).complete inside (r := .char ';' :: r) (by omega) trivial
    have next : .TYPE :: .ID name :: .char '=' :: (us ++ [.char ';']) ++ r =
        .TYPE :: .ID name :: .char '=' :: (us ++ .char ';' :: r) := by simp
    rw [next, readTypeDecl, bind_of_some (token_cons ..), bind_of_some (name_eq_some.mpr rfl),
      bind_of_some (token_cons ..), bind_of_some type, bind_of_some (token_cons ..)]
    rfl

theorem exact_group {n : Nat} : Exact n (readGroup n) ParameterText Anything where
  sound taken := by
    obtain ⟨names, s₁, first, rest⟩ := bind_eq_some.mp taken
    obtain ⟨_, s₂, colon, rest⟩ := bind_eq_some.mp rest
    obtain ⟨ty, s₃, second, finish⟩ := bind_eq_some.mp rest
    obtain ⟨rfl, rfl⟩ := pure_eq_some.mp finish
    obtain ⟨us, rfl, list⟩ := (exact_names (n := n)).sound first
    obtain rfl := token_eq_some.mp colon
    obtain ⟨vs, rfl, inside⟩ := (exact_type n).sound second
    exact ⟨_, by simp, us, vs, rfl, list, inside⟩
  complete := by
    rintro ts r ⟨names, ty⟩ ⟨us, vs, rfl, list, inside⟩ short -
    simp only [List.length_cons, List.length_append] at short
    have first := exact_names.complete (n := n) list (r := .char ':' :: (vs ++ r)) (by omega) rfl
    have second := (exact_type n).complete inside (r := r) (by omega) trivial
    rw [List.append_assoc, List.cons_append, readGroup, bind_of_some first,
      bind_of_some (token_cons ..), bind_of_some second]
    rfl

theorem exact_decls {n : Nat} : Exact n (readDecls n) DeclsText Anything where
  sound taken := by
    obtain ⟨_, s₁, var, rest⟩ := bind_eq_some.mp taken
    obtain ⟨group, s₂, inside, rest⟩ := bind_eq_some.mp rest
    obtain ⟨_, s₃, semicolon, finish⟩ := bind_eq_some.mp rest
    obtain ⟨rfl, rfl⟩ := pure_eq_some.mp finish
    obtain rfl := token_eq_some.mp var
    obtain ⟨ts, rfl, us, vs, rfl, list, type⟩ := (exact_group (n := n)).sound inside
    obtain rfl := token_eq_some.mp semicolon
    exact ⟨_, by simp, us, vs, rfl, list, type⟩
  complete := by
    rintro ts r d ⟨us, vs, rfl, list, type⟩ short -
    simp only [List.length_cons, List.length_append] at short
    have group := exact_group.complete (n := n) ⟨us, vs, rfl, list, type⟩ (r := .char ';' :: r)
      (by simp only [List.length_cons, List.length_append]; omega) trivial
    have next : .VAR :: (us ++ .char ':' :: (vs ++ [.char ';'])) ++ r =
        .VAR :: (us ++ .char ':' :: vs ++ .char ';' :: r) := by simp
    rw [next, readDecls, bind_of_some (token_cons ..), bind_of_some group,
      bind_of_some (token_cons ..)]
    rfl

theorem exact_formals {n : Nat} : Exact n (readFormals n) ArgumentsText
    fun r => clear (· == .char '(') r = true := by
  -- what follows the formals is no opening parenthesis
  have list := (exact_group (n := n)).separated (.char ';') fun _ _ => trivial
  constructor
  · intro s r v taken
    unfold readFormals at taken
    split at taken
    · obtain ⟨ds, s₁, parameters, rest⟩ := bind_eq_some.mp taken
      obtain ⟨_, s₂, close, finish⟩ := bind_eq_some.mp rest
      obtain ⟨rfl, rfl⟩ := pure_eq_some.mp finish
      obtain rfl := token_eq_some.mp close
      obtain ⟨ts, rfl, inside⟩ := list.sound parameters
      exact ⟨_, by simp, .list inside⟩
    · cases taken
      exact ⟨[], rfl, .empty⟩
  · intro ts r v text short ends
    cases text with
    | @list ts ds inside =>
      simp only [List.length_cons, List.length_append] at short
      have parameters := list.complete inside (r := .char ')' :: r) (by omega) ⟨rfl, trivial⟩
      have next : .char '(' :: (ts ++ [.char ')']) ++ r = .char '(' :: (ts ++ .char ')' :: r) := by
        simp
      rw [next, readFormals, bind_of_some parameters, bind_of_some (token_cons ..)]
      rfl
    | empty =>
      rw [List.nil_append]
      unfold readFormals
      split
      · cases ends
      · rfl

end Dragon
