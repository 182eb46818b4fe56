import Dragon.Dump.Tokens

/-! The printers of ast.c.

They write what compile_input shows of a program with DUMP_AST. A node has a
line, and its parts are further right.
-/

set_option autoImplicit false

namespace Dragon

/-- Spaces per indentation level. -/
def INDSZ : Nat := 2

def INDENT (indent : Nat) : List Char := List.replicate indent ' '

namespace AstPath

/-- The components, with a point after each but the last. -/
def printFrom : Name → List Name → List Char
  | n, [] => n.toList
  | n, m :: rest => n.toList ++ '.' :: printFrom m rest

def print (p : AstPath) : List Char := printFrom p.first p.rest

end AstPath

namespace AstExpr

mutual

def print : AstExpr → Nat → List Char
  | .app p args, indent =>
      INDENT indent ++ ("APPLY `".toList ++ (p.print ++ ("`\n".toList ++
        (INDENT indent ++ (puts "TO ARGS:" ++ printAll args (indent + INDSZ))))))
  | .bin op left right, indent =>
      INDENT indent ++ ("BINOP ".toList ++ (printToken op.write ++
        (INDENT (indent + INDSZ) ++ ("LEFT:\n".toList ++ (left.print (indent + INDSZ + INDSZ) ++
          (INDENT (indent + INDSZ) ++ ("RIGHT:\n".toList ++
            right.print (indent + INDSZ + INDSZ))))))))
  | .deref target, indent =>
      INDENT indent ++ (puts "DEREF:" ++ (target.print (indent + INDSZ) ++ puts ""))
  | .idx p index, indent =>
      INDENT indent ++ ("INDEX `".toList ++ (p.print ++ (puts "` WITH:" ++
        index.print (indent + INDSZ))))
  | .lit n, indent => INDENT indent ++ ("LIT `".toList ++ (n.toList ++ "`\n".toList))
  | .path p, indent => INDENT indent ++ (p.print ++ puts "")
  | .un op operand, indent =>
      INDENT indent ++ ("UNARY ".toList ++ (printToken op.write ++ (puts ":" ++
        operand.print (indent + INDSZ))))
  | .addrof target, indent =>
      INDENT indent ++ (puts "ADDRESS OF:" ++ target.print (indent + INDSZ))

def printAll : List AstExpr → Nat → List Char
  | [], _ => []
  | e :: args, indent => e.print indent ++ printAll args indent

end

theorem printAll_eq (args : List AstExpr) (indent : Nat) :
    printAll args indent = args.flatMap (·.print indent) := by
  induction args with
  | nil => rfl
  | cons e args ih => rw [printAll, ih, List.flatMap_cons]

end AstExpr

namespace AstStmt

mutual

def print : AstStmt → Nat → List Char
  | .null, _ => []
  | .assign lvalue rvalue, indent =>
      INDENT indent ++ (puts "ASSIGN" ++ (lvalue.print (indent + INDSZ) ++
        (INDENT indent ++ (puts "TO" ++ rvalue.print (indent + INDSZ)))))
  | .ite cond thenn elze, indent =>
      INDENT indent ++ (puts "IF FOLLOWING IS TRUE:" ++ (cond.print (indent + INDSZ) ++
        (INDENT indent ++ (puts "THEN:" ++ (thenn.print (indent + INDSZ) ++
          (INDENT indent ++ (puts "OTHERWISE:" ++ elze.print (indent + INDSZ))))))))
  | .stmts body, indent => printAll body indent
  | .proc p args, indent =>
      INDENT indent ++ ("APPLY `".toList ++ (p.print ++
        if args.isEmpty then puts "`"
        else puts "` WITH:" ++ AstExpr.printAll args (indent + INDSZ)))
  | .wdo cond body, indent =>
      INDENT indent ++ (puts "WHILE THE FOLLOWING IS TRUE:" ++ (cond.print (indent + INDSZ) ++
        (INDENT indent ++ (puts "DO:" ++ body.print (indent + INDSZ)))))
  | .foor id start finish body, indent =>
      INDENT indent ++ ("FOR `".toList ++ (id.toList ++ ("` STARTING AT:\n".toList ++
        (start.print (indent + INDSZ) ++ (INDENT indent ++ (puts "AND GOING TO:" ++
          (finish.print (indent + INDSZ) ++ (INDENT indent ++ (puts "DO:" ++
            body.print (indent + INDSZ))))))))))

def printAll : List AstStmt → Nat → List Char
  | [], _ => []
  | s :: body, indent => s.print indent ++ printAll body indent

end

theorem printAll_eq (body : List AstStmt) (indent : Nat) :
    printAll body indent = body.flatMap (·.print indent) := by
  induction body with
  | nil => rfl
  | cons s body ih => rw [printAll, ih, List.flatMap_cons]

end AstStmt

namespace AstType

mutual

/-- print_type. There is no newline after a reference; TYPE_VOID is complained of on stderr. -/
def print : AstType → Nat → List Char
  | .integer, indent => INDENT indent ++ puts "INTEGER"
  | .real, indent => INDENT indent ++ puts "REAL"
  | .string, indent => INDENT indent ++ puts "STRING"
  | .boolean, indent => INDENT indent ++ puts "BOOLEAN"
  | .char, indent => INDENT indent ++ puts "CHAR"
  | .array lower upper eltType, indent =>
      INDENT indent ++ ("ARRAY [`".toList ++ (lower.toList ++ ("` .. `".toList ++ (upper.toList ++
        ("`] OF:\n".toList ++ eltType.print (indent + INDSZ))))))
  | .pointer target, indent =>
      INDENT indent ++ (puts "POINTER TO:" ++ target.print (indent + INDSZ))
  | .ref name, indent => INDENT indent ++ ("REFERENCE `".toList ++ (name.toList ++ ['`']))
  | .record fields, indent =>
      INDENT indent ++ (puts "RECORD WITH FIELDS:" ++ printFields fields (indent + INDSZ))
  | .void, indent => INDENT indent

def printFields : List (Name × AstType) → Nat → List Char
  | [], _ => []
  | (name, type) :: fields, indent =>
      INDENT indent ++ ("FIELD `".toList ++ (name.toList ++ (puts "` WITH TYPE:" ++
        (type.print (indent + INDSZ) ++ printFields fields indent))))

end

end AstType

def Name.print (indent : Nat) (name : Name) : List Char :=
  INDENT indent ++ ('`' :: (name.toList ++ puts "`"))

def AstDecls.print (indent : Nat) (d : AstDecls) : List Char :=
  INDENT indent ++ (puts "DECLARATION WITH TYPE:" ++ (d.type.print (indent + INDSZ) ++
    (INDENT indent ++ (puts "OF NAMES:" ++ d.names.flatMap (Name.print (indent + INDSZ))))))

/-- print_type at a TYPE_FUNCTION node. -/
def AstSig.print (indent : Nat) (sig : AstSig) : List Char :=
  INDENT indent ++ ((if sig.type = .function then "FUNCTION".toList else "PROCEDURE".toList) ++
    (puts " WITH ARGUMENTS:" ++ (sig.args.flatMap (AstDecls.print (indent + INDSZ)) ++
      if sig.type = .function then
        INDENT indent ++ (puts "RETURNING:" ++ (sig.retty.map (·.print (indent + INDSZ))).getD [])
      else [])))

namespace AstSubdecl

mutual

/-- print_subprogram_decl. Neither the name nor the types are printed. -/
def print : AstSubdecl → Nat → List Char
  | .mk head _ decls subprogs _ body, indent =>
      head.print indent ++
        (INDENT indent ++ (puts "WITH SUBPROGRAMS:" ++ (printAll subprogs (indent + INDSZ) ++
          (INDENT indent ++ (puts "AND VARIABLES" ++
            (decls.flatMap (AstDecls.print (indent + INDSZ)) ++
              (INDENT indent ++ (puts "DOES:" ++ body.print (indent + INDSZ)))))))))

def printAll : List AstSubdecl → Nat → List Char
  | [], _ => []
  | d :: subprogs, indent => d.print indent ++ printAll subprogs indent

end

end AstSubdecl

def NamedProgram.print (p : NamedProgram) (indent : Nat) : List Char :=
  INDENT indent ++ ("PROGRAM `".toList ++ (p.name.toList ++ (puts "` WITH ARGS:" ++
    (p.args.flatMap (Name.print (indent + INDSZ)) ++
      (INDENT indent ++ (puts "AND VARIABLES:" ++ (p.decls.flatMap (AstDecls.print (indent + INDSZ)) ++
        (INDENT indent ++ (puts "AND SUBPROGRAMS:" ++
          (AstSubdecl.printAll p.subprogs (indent + INDSZ) ++
            (INDENT indent ++ (puts "DOES:" ++ p.body.print (indent + INDSZ)))))))))))))

/-- What compile_input writes with DUMP_AST. -/
def NamedProgram.dump (p : NamedProgram) : List Char :=
  p.print 0 ++ puts "-- done dumping ast --"

/-- tests/parser/records.d: nothing of its type declaration is shown, and no line ends at the
reference to it. -/
example : NamedProgram.dump ⟨⟨[], [⟨["a"], .ref "foo"⟩], [],
      [⟨"foo", .record [("a", .integer), ("b", .real)]⟩],
      .stmts [.assign (.path ⟨"a", ["a"]⟩) (.lit "0"), .assign (.path ⟨"a", ["b"]⟩) (.lit "0")]⟩,
    "example"⟩ =
    ("PROGRAM `example` WITH ARGS:\nAND VARIABLES:\n  DECLARATION WITH TYPE:\n" ++
      "    REFERENCE `foo`  OF NAMES:\n    `a`\nAND SUBPROGRAMS:\nDOES:\n" ++
      "  ASSIGN\n    a.a\n  TO\n    LIT `0`\n  ASSIGN\n    a.b\n  TO\n    LIT `0`\n" ++
      "-- done dumping ast --\n").toList := by
  decide +kernel

end Dragon
