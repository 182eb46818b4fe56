import Dragon.Source.Core
import Dragon.Symbol.Table

/-! The meaning of statements that write.

A statement is read as a structured program over assignments and output, and its
state is a store together with what has been written so far. Which calls write
is a matter of the names in scope, so the reading takes it from outside.
-/

set_option autoImplicit false

namespace Dragon

open StructuredCode

inductive Output where
  | integer (value : BitVec 64)
  | newline
  deriving DecidableEq, Repr

/-- A store, and what has been written. -/
abbrev Transcript := Store × List Output

inductive Command where
  | assign (x : Name) (rvalue : AstExpr)
  | write (args : List AstExpr)
  | writeln (args : List AstExpr)

namespace Command

def written (args : List AstExpr) (s : Store) : List Output := args.map fun e => .integer (e.value s)

def run (c : Command) (t : Transcript) : Transcript :=
  match c with
  | .assign x rvalue => (t.1.assign x (rvalue.value t.1), t.2)
  | .write args => (t.1, t.2 ++ written args t.1)
  | .writeln args => (t.1, t.2 ++ (written args t.1 ++ [.newline]))

end Command

/-- Whether a condition holds; what has been written has no part in it. -/
def AstExpr.holdsAfter (cond : AstExpr) (t : Transcript) : Bool := cond.holds t.1

namespace AstStmt

/-- A call to write is output, any other call is outside the core. -/
def writing (magic : Option Magic) (args : List AstExpr) : Prog Command AstExpr :=
  match magic with
  | some .write => .act (.write args)
  | some .writeln => .act (.writeln args)
  | _ => .skip

mutual

/-- The structured program of a statement, with the calls that write. -/
def commands (magic : AstPath → Option Magic) : AstStmt → Prog Command AstExpr
  | .assign (.path p) rvalue => .act (.assign p.first rvalue)
  | .ite cond thenn elze => .ite cond (thenn.commands magic) (elze.commands magic)
  | .wdo cond body => .loop cond (body.commands magic)
  | .stmts body => commandsAll magic body
  | .proc p args => writing (magic p) args
  | .null | .assign .. | .foor .. => .skip

def commandsAll (magic : AstPath → Option Magic) : List AstStmt → Prog Command AstExpr
  | [] => .skip
  | s :: body => .seq (s.commands magic) (commandsAll magic body)

end

def Prints (magic : AstPath → Option Magic) (s : AstStmt) (store store' : Store)
    (out : List Output) : Prop :=
  StructuredCode.Exec Command.run AstExpr.holdsAfter (s.commands magic) (store, []) (store', out)

end AstStmt

end Dragon
