import Dragon.Library.Structured
import Dragon.Source.Arithmetic

/-! The structured core of the source language and its meaning.

Which programs are of the core is read off the text, and can be computed. A
statement is read as a structured program over assignments and conditions; its
terminating runs are those of the structured language. Values are 64-bit words
and comparisons are signed.
-/

set_option autoImplicit false

namespace Dragon

open StructuredCode

/-! ## Programs of the core -/

def Token.isArithmetic : Token → Bool
  | .plus | .minus | .star => true
  | _ => false

namespace AstExpr

/-- Expressions over digit-only literals below 2^63, variables, +, - and *. -/
def isArithmetic (vars : List Name) : AstExpr → Bool
  | .lit s => (decimal s).any fun n => decide (n < 2 ^ 63)
  | .path p => decide (p.rest = [] ∧ p.first ∈ vars)
  | .bin op left right => op.isArithmetic && (left.isArithmetic vars && right.isArithmetic vars)
  | _ => false

/-- A relational operator applied to two such expressions that fit the registers. -/
def isComparison (vars : List Name) : AstExpr → Bool
  | .bin op left right =>
      isRelop op && (left.isArithmetic vars && right.isArithmetic vars) &&
        decide ((AstExpr.bin op left right).need ≤ 14)
  | _ => false

end AstExpr

mutual

/-- Assignments, blocks, conditionals and while loops. -/
def AstStmt.isCore (vars : List Name) : AstStmt → Bool
  | .null => true
  | .assign (.path p) e =>
      decide (p.rest = [] ∧ p.first ∈ vars) && (e.isArithmetic vars && decide (e.need ≤ 13))
  | .ite cond thenn elze => cond.isComparison vars && (thenn.isCore vars && elze.isCore vars)
  | .stmts body => areCore vars body
  | .wdo cond body => cond.isComparison vars && body.isCore vars
  | .assign .. | .foor .. | .proc .. => false

def areCore (vars : List Name) : List AstStmt → Bool
  | [] => true
  | s :: body => s.isCore vars && areCore vars body

end

def AstType.isInteger (names : List Name) : AstType → Bool
  | .integer => true
  | .ref name => decide (name ∈ names)
  | _ => false

/-- The type names that stand for integer, the last declared one first. -/
def integerNames (types : List AstTypeDecl) : List Name :=
  types.foldl (fun names t => if t.type.isInteger names then t.name :: names else names) []

def AstProgram.globals (prog : AstProgram) : List Name := prog.decls.flatMap AstDecls.names

/-! ## Meaning -/

abbrev Store := Name → BitVec 64

def Token.compare (op : Token) (a b : BitVec 64) : Bool :=
  match op with
  | .eq => decide (a = b)
  | .neq => !decide (a = b)
  | .lt => a.slt b
  | .gt => b.slt a
  | .le => a.sle b
  | .ge => b.sle a
  | _ => false

def Store.assign (s : Store) (x : Name) (v : BitVec 64) : Store := fun y => if y = x then v else s y

def assignTo (c : Name × AstExpr) (s : Store) : Store := s.assign c.1 (c.2.value s)

namespace AstExpr

def holds (cond : AstExpr) (s : Store) : Bool :=
  match cond with
  | .bin op left right => op.compare (left.value s) (right.value s)
  | _ => false

end AstExpr

namespace AstStmt

mutual

/-- The structured program of a statement; statements outside the core do nothing. -/
def core : AstStmt → Prog (Name × AstExpr) AstExpr
  | .assign (.path p) rvalue => .act (p.first, rvalue)
  | .ite cond thenn elze => .ite cond thenn.core elze.core
  | .wdo cond body => .loop cond body.core
  | .stmts body => coreAll body
  | .null | .assign .. | .foor .. | .proc .. => .skip

def coreAll : List AstStmt → Prog (Name × AstExpr) AstExpr
  | [] => .skip
  | s :: body => .seq s.core (coreAll body)

end

def Exec (s : AstStmt) : Store → Store → Prop := StructuredCode.Exec assignTo (fun t => t.holds) s.core

end AstStmt

end Dragon
