import Mathlib.Algebra.Order.Ring.Int
import Mathlib.Data.List.Basic

/-! The syntax tree of ast.h, as the actions of parser.y build it.

A path is never empty: ast_path starts the component list with one name. The
head of a subprogram is always a TYPE_FUNCTION node, and no production of
`type` yields one, so signatures are a type of their own. A NULL statement is
what optional_statements yields for an empty begin..end.
-/

set_option autoImplicit false

namespace Dragon

/-- A C string: an identifier, or the spelling of a number. -/
abbrev Name := String

/-- The members of yytokentype that the actions store in an expression. -/
inductive Token where
  | and | or | eq | neq | lt | gt | le | ge
  | div | slash | mod | plus | minus | star | not
  deriving DecidableEq, Repr

inductive Subprogs where
  | function | procedure
  deriving DecidableEq, Repr

inductive AstType where
  | array (lower upper : Name) (eltType : AstType)
  | boolean
  | char
  | integer
  | pointer (target : AstType)
  | real
  | record (fields : List (Name × AstType))
  | ref (name : Name)
  | string
  | void

structure AstDecls where
  names : List Name
  type : AstType

structure AstTypeDecl where
  name : Name
  type : AstType

/-- The func member of a TYPE_FUNCTION node; a procedure has no return type. -/
structure AstSig where
  type : Subprogs
  args : List AstDecls
  retty : Option AstType

/-- The formal names in declaration order, each with its type. -/
def AstSig.formals (sig : AstSig) : List (Name × AstType) :=
  sig.args.flatMap fun decls => decls.names.map fun name => (name, decls.type)

/-- The value of a number spelling of digits only. -/
def decimal (lit : Name) : Option Nat :=
  if lit.toList ≠ [] ∧ lit.toList.all Char.isDigit then
    some (lit.toList.foldl (fun n c => 10 * n + (c.toNat - '0'.toNat)) 0)
  else none

structure AstPath where
  first : Name
  rest : List Name
  deriving DecidableEq, Repr

def AstPath.components (p : AstPath) : List Name := p.first :: p.rest

def astPath (name : Name) : AstPath := ⟨name, []⟩

inductive AstExpr where
  | app (name : AstPath) (args : List AstExpr)
  | bin (op : Token) (left right : AstExpr)
  | deref (target : AstExpr)
  | idx (path : AstPath) (index : AstExpr)
  | lit (spelling : Name)
  | path (path : AstPath)
  | un (op : Token) (operand : AstExpr)
  | addrof (target : AstExpr)

inductive AstStmt where
  | null
  | assign (lvalue rvalue : AstExpr)
  | foor (id : Name) (start finish : AstExpr) (body : AstStmt)
  | ite (cond : AstExpr) (thenn elze : AstStmt)
  | proc (name : AstPath) (args : List AstExpr)
  | stmts (body : List AstStmt)
  | wdo (cond : AstExpr) (body : AstStmt)

inductive AstSubdecl where
  | mk (head : AstSig) (name : Name) (decls : List AstDecls) (subprogs : List AstSubdecl)
      (types : List AstTypeDecl) (body : AstStmt)

namespace AstSubdecl

def head : AstSubdecl → AstSig | mk head _ _ _ _ _ => head
def name : AstSubdecl → Name | mk _ name _ _ _ _ => name
def decls : AstSubdecl → List AstDecls | mk _ _ decls _ _ _ => decls
def subprogs : AstSubdecl → List AstSubdecl | mk _ _ _ subprogs _ _ => subprogs
def types : AstSubdecl → List AstTypeDecl | mk _ _ _ _ types _ => types
def body : AstSubdecl → AstStmt | mk _ _ _ _ _ body => body

end AstSubdecl

structure AstProgram where
  args : List Name
  decls : List AstDecls
  subprogs : List AstSubdecl
  types : List AstTypeDecl
  body : AstStmt

def isRelop : Token → Bool
  | .neq | .le | .ge | .lt | .gt | .eq => true
  | _ => false

end Dragon
