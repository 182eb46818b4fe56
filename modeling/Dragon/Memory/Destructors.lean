import Dragon.Ast
import Dragon.Library.Ownership

/-! The destructors of ast.c.

What the constructors allocate is a tree of blocks: a node owns its parts, its
lists and the spellings of names and numbers. The destructors free each block of
a tree once.
-/

set_option autoImplicit false

namespace Dragon

open Ownership

/-- The pointer fields of the structures of ast.h, and those of a list node. -/
inductive Member where
  | addrof | args | body | components | cond | decls | deref | elt | elze | eltType | expr | finish | head | id
  | left | lit | lower | lvalue | name | names | next | path | pointer | record | ref | retty | right
  | rvalue | start | stmts | subprogs | thenn | type | types | upper
  deriving DecidableEq, Repr

instance : ListFields Member where
  elt := .elt
  next := .next
  elt_ne_next := by decide

/-- The way to a block of the tree, from the last field to the first. -/
abbrev Place := List Member

def free (place : Place) : List Place := [place]

/-- list_free on a list at a place, with what the destructor frees of each element. -/
def freeList (frees : List (Place → List Place)) (place : Place) : List Place :=
  listFree place (withNodes place frees)

theorem frees_elements {frees : List (Place → List Place)} {ps : List (Pointer Member)}
    (each : List.Forall₂ Frees frees ps) : Frees (freeList frees) (listOf ps) := frees_list each

def ownedNames (names : List Name) : Pointer Member := listOf (names.map fun _ => .plain)

def freeNames (names : List Name) : Place → List Place := freeList (names.map fun _ => free)

theorem frees_free : Frees free (.plain : Pointer Member) := fun _ _ => rfl

theorem frees_map {α : Type} {free : α → Place → List Place} {owned : α → Pointer Member} {xs : List α}
    (each : ∀ x ∈ xs, Frees (free x) (owned x)) :
    List.Forall₂ Frees (xs.map free) (xs.map owned) := by
  induction xs with
  | nil => exact .nil
  | cons x xs ih =>
    exact .cons (each x List.mem_cons_self) (ih fun y member => each y (List.mem_cons_of_mem x member))

theorem frees_names (names : List Name) : Frees (freeNames names) (ownedNames names) :=
  frees_elements (frees_map fun _ _ => frees_free)

theorem distinct_names (names : List Name) : (ownedNames names).Distinct :=
  listOf_distinct fun p member => by
    obtain ⟨_, -, rfl⟩ := List.mem_map.mp member
    exact ⟨List.nodup_nil, trivial⟩

/-! ## Paths and expressions -/

def AstPath.owned (p : AstPath) : Pointer Member := .block [(.components, ownedNames p.components)]

def freePath (p : AstPath) (place : Place) : List Place :=
  freeNames p.components (.components :: place) ++ [place]

theorem frees_path (p : AstPath) : Frees (freePath p) p.owned := by
  intro place b
  simp only [freePath, AstPath.owned, Pointer.blocks, Pointer.fieldBlocks, List.append_nil,
    List.count_append, frees_names _ _ b]
  omega

theorem distinct_path (p : AstPath) : p.owned.Distinct :=
  ⟨List.nodup_singleton _, distinct_names _, trivial⟩

mutual

def AstExpr.owned : AstExpr → Pointer Member
  | .app p args => .block [(.name, p.owned), (.args, listOf (ownedExprs args))]
  | .bin _ left right => .block [(.left, left.owned), (.right, right.owned)]
  | .deref target => .block [(.deref, target.owned)]
  | .idx p index => .block [(.path, p.owned), (.expr, index.owned)]
  | .lit _ => .block [(.lit, .plain)]
  | .path p => .block [(.path, p.owned)]
  | .un _ operand => .block [(.expr, operand.owned)]
  | .addrof target => .block [(.addrof, target.owned)]

def ownedExprs : List AstExpr → List (Pointer Member)
  | [] => []
  | e :: es => e.owned :: ownedExprs es

end

mutual

def freeExpr : AstExpr → Place → List Place
  | .app p args, place =>
      freeList (freeExprs args) (.args :: place) ++ freePath p (.name :: place) ++ [place]
  | .bin _ left right, place =>
      freeExpr left (.left :: place) ++ freeExpr right (.right :: place) ++ [place]
  | .deref target, place => freeExpr target (.deref :: place) ++ [place]
  | .idx p index, place => freePath p (.path :: place) ++ freeExpr index (.expr :: place) ++ [place]
  | .lit _, place => free (.lit :: place) ++ [place]
  | .path p, place => freePath p (.path :: place) ++ [place]
  | .un _ operand, place => freeExpr operand (.expr :: place) ++ [place]
  | .addrof target, place => freeExpr target (.addrof :: place) ++ [place]

def freeExprs : List AstExpr → List (Place → List Place)
  | [] => []
  | e :: es => freeExpr e :: freeExprs es

end

mutual

theorem frees_expr : ∀ e : AstExpr, Frees (freeExpr e) e.owned
  | .app p args => by
      intro place b
      have list := frees_elements (frees_exprs args) (.args :: place) b
      have path := frees_path p (.name :: place) b
      simp only [freeExpr, AstExpr.owned, Pointer.blocks, Pointer.fieldBlocks,
        List.append_nil, List.count_append, path, list]
      omega
  | .bin _ left right => by
      intro place b
      simp only [freeExpr, AstExpr.owned, Pointer.blocks, Pointer.fieldBlocks, List.append_nil,
        List.count_append, frees_expr left _ b, frees_expr right _ b]
      omega
  | .deref target | .addrof target => by
      intro place b
      simp only [freeExpr, AstExpr.owned, Pointer.blocks, Pointer.fieldBlocks, List.append_nil,
        List.count_append, frees_expr target _ b]
      omega
  | .idx p index => by
      intro place b
      simp only [freeExpr, AstExpr.owned, Pointer.blocks, Pointer.fieldBlocks, List.append_nil,
        List.count_append, frees_path p _ b, frees_expr index _ b]
      omega
  | .lit _ => by
      intro place b
      simp only [freeExpr, AstExpr.owned, Pointer.blocks, Pointer.fieldBlocks, List.append_nil,
        List.count_append, frees_free _ b]
      omega
  | .path p => by
      intro place b
      simp only [freeExpr, AstExpr.owned, Pointer.blocks, Pointer.fieldBlocks, List.append_nil,
        List.count_append, frees_path p _ b]
      omega
  | .un _ operand => by
      intro place b
      simp only [freeExpr, AstExpr.owned, Pointer.blocks, Pointer.fieldBlocks, List.append_nil,
        List.count_append, frees_expr operand _ b]
      omega

theorem frees_exprs : ∀ es : List AstExpr, List.Forall₂ Frees (freeExprs es) (ownedExprs es)
  | [] => .nil
  | e :: es => .cons (frees_expr e) (frees_exprs es)

end

mutual

theorem distinct_expr : ∀ e : AstExpr, e.owned.Distinct
  | .app p args => by
      have list := listOf_distinct (distinct_exprs args)
      exact ⟨by simp, distinct_path p, list, trivial⟩
  | .bin _ left right => ⟨by simp, distinct_expr left, distinct_expr right, trivial⟩
  | .deref target | .addrof target => ⟨by simp, distinct_expr target, trivial⟩
  | .idx p index => ⟨by simp, distinct_path p, distinct_expr index, trivial⟩
  | .lit _ => ⟨by simp, ⟨List.nodup_nil, trivial⟩, trivial⟩
  | .path p => ⟨by simp, distinct_path p, trivial⟩
  | .un _ operand => ⟨by simp, distinct_expr operand, trivial⟩

theorem distinct_exprs : ∀ es : List AstExpr, ∀ p ∈ ownedExprs es, p.Distinct
  | [], _, member => absurd member List.not_mem_nil
  | e :: es, p, member => by
      rw [ownedExprs, List.mem_cons] at member
      rcases member with rfl | later
      · exact distinct_expr e
      · exact distinct_exprs es p later

end

/-! ## Statements -/

mutual

def AstStmt.owned : AstStmt → Pointer Member
  | .null => .null
  | .assign lvalue rvalue => .block [(.lvalue, lvalue.owned), (.rvalue, rvalue.owned)]
  | .foor _ start finish body =>
      .block [(.id, .plain), (.start, start.owned), (.finish, finish.owned), (.body, body.owned)]
  | .ite cond thenn elze => .block [(.cond, cond.owned), (.thenn, thenn.owned), (.elze, elze.owned)]
  | .proc p args => .block [(.name, p.owned), (.args, listOf (ownedExprs args))]
  | .stmts body => .block [(.stmts, listOf (ownedStmts body))]
  | .wdo cond body => .block [(.cond, cond.owned), (.body, body.owned)]

def ownedStmts : List AstStmt → List (Pointer Member)
  | [] => []
  | s :: body => s.owned :: ownedStmts body

end

mutual

def freeStmt : AstStmt → Place → List Place
  -- a NULL statement has no block
  | .null, _ => []
  | .assign lvalue rvalue, place =>
      freeExpr lvalue (.lvalue :: place) ++ freeExpr rvalue (.rvalue :: place) ++ [place]
  | .foor _ start finish body, place =>
      free (.id :: place) ++ freeExpr start (.start :: place) ++ freeExpr finish (.finish :: place) ++
        freeStmt body (.body :: place) ++ [place]
  | .ite cond thenn elze, place =>
      freeExpr cond (.cond :: place) ++ freeStmt thenn (.thenn :: place) ++
        freeStmt elze (.elze :: place) ++ [place]
  | .proc p args, place =>
      freePath p (.name :: place) ++ freeList (freeExprs args) (.args :: place) ++ [place]
  | .stmts body, place => freeList (freeStmts body) (.stmts :: place) ++ [place]
  | .wdo cond body, place =>
      freeExpr cond (.cond :: place) ++ freeStmt body (.body :: place) ++ [place]

def freeStmts : List AstStmt → List (Place → List Place)
  | [] => []
  | s :: body => freeStmt s :: freeStmts body

end

mutual

theorem frees_stmt : ∀ s : AstStmt, Frees (freeStmt s) s.owned
  | .null => fun _ _ => rfl
  | .assign lvalue rvalue => by
      intro place b
      simp only [freeStmt, AstStmt.owned, Pointer.blocks, Pointer.fieldBlocks, List.append_nil,
        List.count_append, frees_expr _ _ b]
      omega
  | .foor _ start finish body => by
      intro place b
      simp only [freeStmt, AstStmt.owned, Pointer.blocks, Pointer.fieldBlocks, List.append_nil,
        List.count_append, frees_expr _ _ b, frees_free _ b, frees_stmt body _ b]
      omega
  | .ite cond thenn elze => by
      intro place b
      simp only [freeStmt, AstStmt.owned, Pointer.blocks, Pointer.fieldBlocks, List.append_nil,
        List.count_append, frees_expr _ _ b, frees_stmt thenn _ b, frees_stmt elze _ b]
      omega
  | .proc p args => by
      intro place b
      have list := frees_elements (frees_exprs args) (.args :: place) b
      simp only [freeStmt, AstStmt.owned, Pointer.blocks, Pointer.fieldBlocks,
        List.append_nil, List.count_append, frees_path p _ b, list]
      omega
  | .stmts body => by
      intro place b
      have list := frees_elements (frees_stmts body) (.stmts :: place) b
      simp only [freeStmt, AstStmt.owned, Pointer.blocks, Pointer.fieldBlocks,
        List.append_nil, List.count_append, list]
      omega
  | .wdo cond body => by
      intro place b
      simp only [freeStmt, AstStmt.owned, Pointer.blocks, Pointer.fieldBlocks, List.append_nil,
        List.count_append, frees_expr _ _ b, frees_stmt body _ b]
      omega

theorem frees_stmts : ∀ body : List AstStmt, List.Forall₂ Frees (freeStmts body) (ownedStmts body)
  | [] => .nil
  | s :: body => .cons (frees_stmt s) (frees_stmts body)

end

mutual

theorem distinct_stmt : ∀ s : AstStmt, s.owned.Distinct
  | .null => trivial
  | .assign lvalue rvalue => ⟨by simp, distinct_expr lvalue, distinct_expr rvalue, trivial⟩
  | .foor _ start finish body =>
      ⟨by simp, ⟨List.nodup_nil, trivial⟩, distinct_expr start, distinct_expr finish,
        distinct_stmt body, trivial⟩
  | .ite cond thenn elze =>
      ⟨by simp, distinct_expr cond, distinct_stmt thenn, distinct_stmt elze, trivial⟩
  | .proc p args => ⟨by simp, distinct_path p, listOf_distinct (distinct_exprs args), trivial⟩
  | .stmts body => ⟨by simp, listOf_distinct (distinct_stmts body), trivial⟩
  | .wdo cond body => ⟨by simp, distinct_expr cond, distinct_stmt body, trivial⟩

theorem distinct_stmts : ∀ body : List AstStmt, ∀ p ∈ ownedStmts body, p.Distinct
  | [], _, member => absurd member List.not_mem_nil
  | s :: body, p, member => by
      rw [ownedStmts, List.mem_cons] at member
      rcases member with rfl | later
      · exact distinct_stmt s
      · exact distinct_stmts body p later

end

/-! ## Types and declarations -/

mutual

def AstType.owned : AstType → Pointer Member
  | .array _ _ eltType => .block [(.lower, .plain), (.upper, .plain), (.eltType, eltType.owned)]
  | .pointer target => .block [(.pointer, target.owned)]
  | .record fields => .block [(.record, listOf (ownedFields fields))]
  | .ref _ => .block [(.ref, .plain)]
  | .boolean | .char | .integer | .real | .string | .void => .plain

def ownedFields : List (Name × AstType) → List (Pointer Member)
  | [] => []
  | (_, type) :: fields => .block [(.name, .plain), (.type, type.owned)] :: ownedFields fields

end

mutual

def freeType : AstType → Place → List Place
  | .array _ _ eltType, place =>
      free (.lower :: place) ++ free (.upper :: place) ++ freeType eltType (.eltType :: place) ++ [place]
  | .pointer target, place => freeType target (.pointer :: place) ++ [place]
  | .record fields, place => freeList (freeRecordFields fields) (.record :: place) ++ [place]
  | .ref _, place => free (.ref :: place) ++ [place]
  | .boolean, place | .char, place | .integer, place | .real, place | .string, place | .void, place =>
      [place]

def freeRecordFields : List (Name × AstType) → List (Place → List Place)
  | [] => []
  | (_, type) :: fields =>
      (fun place => free (.name :: place) ++ freeType type (.type :: place) ++ [place]) ::
        freeRecordFields fields

end

mutual

theorem frees_type : ∀ t : AstType, Frees (freeType t) t.owned
  | .array _ _ eltType => by
      intro place b
      simp only [freeType, AstType.owned, Pointer.blocks, Pointer.fieldBlocks, List.append_nil,
        List.count_append, frees_free _ b, frees_type eltType _ b]
      omega
  | .pointer target => by
      intro place b
      simp only [freeType, AstType.owned, Pointer.blocks, Pointer.fieldBlocks, List.append_nil,
        List.count_append, frees_type target _ b]
      omega
  | .record fields => by
      intro place b
      have list := frees_elements (frees_fields fields) (.record :: place) b
      simp only [freeType, AstType.owned, Pointer.blocks, Pointer.fieldBlocks,
        List.append_nil, List.count_append, list]
      omega
  | .ref _ => by
      intro place b
      simp only [freeType, AstType.owned, Pointer.blocks, Pointer.fieldBlocks, List.append_nil,
        List.count_append, frees_free _ b]
      omega
  | .boolean | .char | .integer | .real | .string | .void => frees_free

theorem frees_fields : ∀ fields : List (Name × AstType),
    List.Forall₂ Frees (freeRecordFields fields) (ownedFields fields)
  | [] => .nil
  | (_, type) :: fields => by
      refine .cons ?_ (frees_fields fields)
      intro place b
      simp only [Pointer.blocks, Pointer.fieldBlocks, List.append_nil, List.count_append,
        frees_free _ b, frees_type type _ b]
      omega

end

mutual

theorem distinct_type : ∀ t : AstType, t.owned.Distinct
  | .array _ _ eltType =>
      ⟨by simp, ⟨List.nodup_nil, trivial⟩, ⟨List.nodup_nil, trivial⟩, distinct_type eltType, trivial⟩
  | .pointer target => ⟨by simp, distinct_type target, trivial⟩
  | .record fields => ⟨by simp, listOf_distinct (distinct_fields fields), trivial⟩
  | .ref _ => ⟨by simp, ⟨List.nodup_nil, trivial⟩, trivial⟩
  | .boolean | .char | .integer | .real | .string | .void => ⟨List.nodup_nil, trivial⟩

theorem distinct_fields : ∀ fields : List (Name × AstType), ∀ p ∈ ownedFields fields, p.Distinct
  | [], _, member => absurd member List.not_mem_nil
  | (_, type) :: fields, p, member => by
      rw [ownedFields, List.mem_cons] at member
      rcases member with rfl | later
      · exact ⟨by simp, ⟨List.nodup_nil, trivial⟩, distinct_type type, trivial⟩
      · exact distinct_fields fields p later

end

namespace AstDecls

def owned (d : AstDecls) : Pointer Member :=
  .block [(.names, ownedNames d.names), (.type, d.type.owned)]

end AstDecls

def freeDecls (d : AstDecls) (place : Place) : List Place :=
  freeType d.type (.type :: place) ++ freeNames d.names (.names :: place) ++ [place]

theorem frees_decls (d : AstDecls) : Frees (freeDecls d) d.owned := by
  intro place b
  simp only [freeDecls, AstDecls.owned, Pointer.blocks, Pointer.fieldBlocks, List.append_nil,
    List.count_append, frees_type _ _ b, frees_names _ _ b]
  omega

theorem distinct_decls (d : AstDecls) : d.owned.Distinct :=
  ⟨by simp, distinct_names d.names, distinct_type d.type, trivial⟩

def AstTypeDecl.owned (t : AstTypeDecl) : Pointer Member :=
  .block [(.name, .plain), (.type, t.type.owned)]

def freeTypeDecl (t : AstTypeDecl) (place : Place) : List Place :=
  free (.name :: place) ++ freeType t.type (.type :: place) ++ [place]

theorem frees_typeDecl (t : AstTypeDecl) : Frees (freeTypeDecl t) t.owned := by
  intro place b
  simp only [freeTypeDecl, AstTypeDecl.owned, Pointer.blocks, Pointer.fieldBlocks, List.append_nil,
    List.count_append, frees_free _ b, frees_type _ _ b]
  omega

theorem distinct_typeDecl (t : AstTypeDecl) : t.owned.Distinct :=
  ⟨by simp, ⟨List.nodup_nil, trivial⟩, distinct_type t.type, trivial⟩

/-- The return type of a procedure is NULL. -/
def ownedRetty (retty : Option AstType) : Pointer Member := retty.elim .null AstType.owned

def freeRetty (retty : Option AstType) : Place → List Place := retty.elim (fun _ => []) freeType

def ownedList {α : Type} (owned : α → Pointer Member) (xs : List α) : Pointer Member :=
  listOf (xs.map owned)

theorem distinct_list {α : Type} {owned : α → Pointer Member} (each : ∀ x, (owned x).Distinct)
    (xs : List α) : (ownedList owned xs).Distinct :=
  listOf_distinct fun p member => by
    obtain ⟨x, -, rfl⟩ := List.mem_map.mp member
    exact each x

theorem frees_each {α : Type} {free : α → Place → List Place} {owned : α → Pointer Member}
    (each : ∀ x, Frees (free x) (owned x)) (xs : List α) :
    Frees (freeList (xs.map free)) (ownedList owned xs) :=
  frees_elements (frees_map fun x _ => each x)

def AstSig.owned (sig : AstSig) : Pointer Member :=
  .block [(.args, ownedList AstDecls.owned sig.args), (.retty, ownedRetty sig.retty)]

def freeSig (sig : AstSig) (place : Place) : List Place :=
  freeRetty sig.retty (.retty :: place) ++ freeList (sig.args.map freeDecls) (.args :: place) ++ [place]

theorem frees_retty (retty : Option AstType) : Frees (freeRetty retty) (ownedRetty retty) := by
  cases retty with
  | none => exact fun _ _ => rfl
  | some type => exact frees_type type

theorem frees_sig (sig : AstSig) : Frees (freeSig sig) sig.owned := by
  intro place b
  simp only [freeSig, AstSig.owned, Pointer.blocks, Pointer.fieldBlocks, List.append_nil,
    List.count_append, frees_retty _ _ b, frees_each frees_decls _ _ b]
  omega

theorem distinct_sig (sig : AstSig) : sig.owned.Distinct := by
  refine ⟨by simp, distinct_list distinct_decls _, ?_, trivial⟩
  cases sig.retty with
  | none => trivial
  | some type => exact distinct_type type

/-! ## Subprograms and the program -/

mutual

def AstSubdecl.owned : AstSubdecl → Pointer Member
  | .mk head _ decls subprogs types body =>
      .block [(.head, head.owned), (.name, .plain), (.decls, ownedList AstDecls.owned decls),
        (.subprogs, listOf (ownedSubprogs subprogs)), (.types, ownedList AstTypeDecl.owned types),
        (.body, body.owned)]

def ownedSubprogs : List AstSubdecl → List (Pointer Member)
  | [] => []
  | d :: subprogs => d.owned :: ownedSubprogs subprogs

end

mutual

def freeSubprogramDecl : AstSubdecl → Place → List Place
  | .mk head _ decls subprogs types body, place =>
      freeSig head (.head :: place) ++ freeList (freeSubprogramDecls subprogs) (.subprogs :: place) ++
        freeList (decls.map freeDecls) (.decls :: place) ++
        freeList (types.map freeTypeDecl) (.types :: place) ++ freeStmt body (.body :: place) ++
        free (.name :: place) ++ [place]

def freeSubprogramDecls : List AstSubdecl → List (Place → List Place)
  | [] => []
  | d :: subprogs => freeSubprogramDecl d :: freeSubprogramDecls subprogs

end

mutual

theorem frees_subprogramDecl : ∀ d : AstSubdecl, Frees (freeSubprogramDecl d) d.owned
  | .mk head _ decls subprogs types body => by
      intro place b
      have list := frees_elements (frees_subprogramDecls subprogs) (.subprogs :: place) b
      simp only [freeSubprogramDecl, AstSubdecl.owned, Pointer.blocks, Pointer.fieldBlocks,
        List.append_nil, List.count_append, frees_sig _ _ b, list, frees_each frees_decls _ _ b,
        frees_each frees_typeDecl _ _ b, frees_stmt _ _ b, frees_free _ b]
      omega

theorem frees_subprogramDecls : ∀ subprogs : List AstSubdecl,
    List.Forall₂ Frees (freeSubprogramDecls subprogs) (ownedSubprogs subprogs)
  | [] => .nil
  | d :: subprogs => .cons (frees_subprogramDecl d) (frees_subprogramDecls subprogs)

end

mutual

theorem distinct_subdecl : ∀ d : AstSubdecl, d.owned.Distinct
  | .mk head _ decls subprogs types body =>
      ⟨by simp, distinct_sig head, ⟨List.nodup_nil, trivial⟩, distinct_list distinct_decls decls,
        listOf_distinct (distinct_subprogs subprogs), distinct_list distinct_typeDecl types,
        distinct_stmt body, trivial⟩

theorem distinct_subprogs : ∀ subprogs : List AstSubdecl, ∀ p ∈ ownedSubprogs subprogs, p.Distinct
  | [], _, member => absurd member List.not_mem_nil
  | d :: subprogs, p, member => by
      rw [ownedSubprogs, List.mem_cons] at member
      rcases member with rfl | later
      · exact distinct_subdecl d
      · exact distinct_subprogs subprogs p later

end

namespace AstProgram

def owned (prog : AstProgram) : Pointer Member :=
  .block [(.name, .plain), (.args, ownedNames prog.args), (.decls, ownedList AstDecls.owned prog.decls),
    (.types, ownedList AstTypeDecl.owned prog.types),
    (.subprogs, listOf (ownedSubprogs prog.subprogs)), (.body, prog.body.owned)]

end AstProgram

def freeProgram (prog : AstProgram) (place : Place) : List Place :=
  free (.name :: place) ++ freeNames prog.args (.args :: place) ++
    freeList (prog.decls.map freeDecls) (.decls :: place) ++
    freeList (prog.types.map freeTypeDecl) (.types :: place) ++
    freeList (freeSubprogramDecls prog.subprogs) (.subprogs :: place) ++
    freeStmt prog.body (.body :: place) ++ [place]

theorem frees_program (prog : AstProgram) : Frees (freeProgram prog) prog.owned := by
  intro place b
  have list := frees_elements (frees_subprogramDecls prog.subprogs) (.subprogs :: place) b
  simp only [freeProgram, AstProgram.owned, Pointer.blocks, Pointer.fieldBlocks, List.append_nil,
    List.count_append, frees_free _ b, frees_names _ _ b, list, frees_each frees_decls _ _ b,
    frees_each frees_typeDecl _ _ b, frees_stmt _ _ b]
  omega

theorem distinct_program (prog : AstProgram) : prog.owned.Distinct :=
  ⟨by simp, ⟨List.nodup_nil, trivial⟩, distinct_names _, distinct_list distinct_decls _,
    distinct_list distinct_typeDecl _, listOf_distinct (distinct_subprogs _), distinct_stmt _, trivial⟩

/-- The tree of a program is freed block by block, each once. -/
theorem freeProgram_once (prog : AstProgram) : (freeProgram prog []).Nodup ∧
    ∀ place, place ∈ freeProgram prog [] ↔ place ∈ prog.owned.blocks [] := by
  have same : (freeProgram prog []).Perm (prog.owned.blocks []) :=
    List.perm_iff_count.mpr (frees_program prog [])
  exact ⟨same.nodup_iff.mpr (Pointer.nodup_blocks (distinct_program prog) []), fun _ => same.mem_iff⟩

end Dragon
