import Dragon.Codegen.Context

/-! analysis.c: type checking and code generation in one pass.

Diagnostics that do not stop the run (DIAG, span_diag) are left out. The
functions keep the order in which the source resolves names, takes and returns
registers, and prints.
-/

set_option autoImplicit false

namespace Dragon

open Analysis

def sizeOfType (t : StabType) : Int :=
  match t.ty with
  | .array .. => 8
  | .boolean => 1
  | .char => 1
  | .func .. => 8
  | .integer => 8
  | .pointer _ => 8
  | .real => 8
  | .record _ => 64
  | .string => 8
  | .void => 1

/-- The captured branch of type_of_path: the first nonlocal use takes a display slot. -/
def capture (idx : Index) (v : StabVar) : Analysis StabVar := fun acx =>
  if v.captured then .ok (v, acx, [])
  else
    let v := { v with captured := true, dispOffset := acx.dispOffset }
    .ok (v, { acx with st := acx.st.setVar idx v, dispOffset := acx.dispOffset + 1 }, [])

def findField (reg : Reg) (n : Name) : List (Name × Index) → Int → Analysis StabResolvedType
  | [], _ => spanErr s!"could not find field `{n}` in record"
  | (name, type) :: fields, offset => do
      let acx ← get
      let t ← ofOption (stabType acx.st type)
      if name = n then
        match t.ty with
        | .pointer target => do
            let t ← ofOption (stabType acx.st target)
            emit [.load reg.name reg.name 0]
            return t.ty
        | ty => do
            emit [.addImm reg.name offset]
            return ty
      else findField reg n fields (offset + sizeOfType t)

/-- The outer loop of type_of_path. The `continue` on the first component skips the step of
LFOREACH to the next node, so the cursor `temp` stays behind the counter by one. -/
def fieldLoop (reg : Reg) : Nat → Bool → List Name → StabResolvedType → Analysis Unit
  | 0, _, _, _ => pure ()
  | count + 1, true, temp, ty => fieldLoop reg count false temp ty
  | _ + 1, false, [], _ => stop .undefined
  | count + 1, false, n :: next, ty =>
      if next = [] then fieldLoop reg count false next ty
      else
        match ty with
        | .record fields => do
            let ty ← findField reg n fields 0
            fieldLoop reg count false next ty
        | _ => spanErr s!"tried to access field `{n}` of non-record type, which can't have fields"

/-- The address part of type_of_path: off rbp for a variable of the innermost scope, through
the display otherwise. -/
def pathAddress (name : Name) (idx : Index) (reg : Reg) : Analysis StabVar := do
  let acx ← get
  let v ← ofOption (stabVar acx.st idx)
  if stabHasLocalVar acx.st name = false then do
    let v ← capture idx v
    emit [.loadDisplay reg.name (v.dispOffset * abiPointerAlign)]
    return v
  else do
    emit [.lea reg.name v.stackBaseOffset]
    return v

def typeOfPath (p : AstPath) (computeRvalue : Bool) : Analysis Resu := do
  let acx ← get
  let name := p.first
  let idx := stabResolveVar acx.st name
  if idx = resolveFailure then spanErr s!"resolution failure! variable `{name}` not found"
  else do
    let reg ← regGimme
    let v ← pathAddress name idx reg
    let t ← ofOption (stabType acx.st v.type)
    fieldLoop reg p.components.length true p.components t.ty
    emit (if computeRvalue then [.load reg.name reg.name 0] else [])
    return ⟨v.type, reg⟩

structure Actual where
  expr : AstExpr
  run : Bool → Analysis Resu

/-- The runtime routine for a type index: `which` is write or read. -/
def routine (which : Name) (t : Index) : Option Name :=
  if t = integerTypeIdx then some (which ++ "_integer")
  else if t = realTypeIdx then some (which ++ "_real")
  else if t = stringTypeIdx then some (which ++ "_string")
  else if t = booleanTypeIdx then some (which ++ "_bool")
  else if t = charTypeIdx then some (which ++ "_char")
  else if t = voidTypeIdx then some (which ++ "_void")
  else none

def routineCall (which : Name) (r : Resu) (newline : List Insn) : Analysis Unit :=
  match routine which r.type with
  | none => spanErr "argument of unprintable type passed to write/ln"
  | some callit => do
      emit ([.push r.reg.name, .call callit, .addImm .rsp 8] ++ newline)
      regTakeitback r.reg

def writeArgs : List Actual → Analysis Unit
  | [] => pure ()
  | e :: args => do
      let r ← e.run true
      routineCall "write" r []
      writeArgs args

def isLvalue : AstExpr → Bool
  | .idx .. | .deref _ | .path _ => true
  | _ => false

def readArgs (newline : List Insn) : List Actual → Analysis Unit
  | [] => pure ()
  | e :: args =>
      if isLvalue e.expr then do
        let r ← e.run false
        routineCall "read" r newline
        readArgs newline args
      else spanErr "but read/ln must be called with lvalues"

def analyzeMagic (which : Magic) (args : List Actual) : Analysis Unit :=
  match which with
  | .write => writeArgs args
  | .writeln => do
      writeArgs args
      emit [.call "write_newline"]
  | .read => readArgs [] args
  | .readln => readArgs [.call "read_newline"] args

/-- The argument loop of analyze_call. A type that differs is only reported, and the register
of the argument is not given back. -/
def pushActuals : List Actual → List Index → Analysis Unit
  | e :: args, ft :: formals => do
      let et ← e.run true
      let acx ← get
      let v ← ofOption (stabVar acx.st ft)
      let _ ← ofExcept (stabTypesEq acx.st et.type v.type)
      emit [.push et.reg.name]
      pushActuals args formals
  | _, _ => pure ()

/-- The result of a magic call: no register, under the number of the first one. -/
def magicResu : Resu := ⟨voidTypeIdx, ⟨.blank, 0, false⟩⟩

def enterCall (f : Name) (count : Nat) : List Insn :=
  [.push .rbp, if count = 0 then .subImm .rsp 8 else .blank, .mov .rbp .rsp, .call f]

/-- analyze_call after the subprogram is known not to be magic. -/
def callSubprog (name : Name) (pt : StabType) (args : List Actual) : Analysis Resu := do
  saveRegisters
  match pt.ty with
  | .func _ formals retty => do
      let wanted := formals.length
      let given := args.length
      if given ≠ wanted then spanErr s!"wanted {wanted}, given {given}"
      else do
        pushActuals args formals
        let reg ← regGimme
        emit (enterCall name given ++ [.pop reg.name, .pop .rbp])
        restoreRegistersExcept reg
        return ⟨retty, reg⟩
  | _ => stop .abort

def analyzeCall (p : AstPath) (args : List Actual) : Analysis Resu :=
  if p.rest ≠ [] then stop .assertFailed
  else do
    let acx ← get
    let name := p.first
    let pty := stabResolveFunc acx.st name
    if pty = resolveFailure then spanErr s!"resolution failure! subprogram `{name}` not found"
    else do
      let pt ← ofOption (stabType acx.st pty)
      match pt.magic with
      | some which => do
          analyzeMagic which args
          return magicResu
      | none => callSubprog name pt args

/-- The byte register made from a register name: its second character and an l. The empty
name is too short to be rewritten in place. -/
def ihatex86 : List Char → Except Stop (List Char)
  | _ :: c :: _ => .ok [c, 'l']
  | _ => .error .undefined

def relopCond : Token → Cond
  | .neq => .ne
  | .lt => .l
  | .gt => .g
  | .le => .le
  | .ge => .ge
  | _ => .e

/-- The division sequence; the result is the quotient in rax or the remainder in rdx. -/
def divCode (l r result : RegName) : List Insn :=
  [.push .rdx, .push .rax, .mov .rax l, .cdq, .idiv r, .mov l result, .pop .rax, .pop .rdx]

def binCode (op : Token) (l r : RegName) : Except Stop (List Insn) :=
  match op with
  | .and => .ok [.alu .and l r]
  | .or => .ok [.alu .or l r]
  | .eq | .neq | .lt | .gt | .le | .ge => do
      let byte ← ihatex86 r.chars
      .ok [.alu .cmp l r, .set (relopCond op) byte, .movzx l byte]
  | .div | .slash => .ok (divCode l r .rax)
  | .mod => .ok (divCode l r .rdx)
  | .plus => .ok [.alu .add l r]
  | .minus => .ok [.alu .sub l r]
  | .star => .ok [.alu .imul l r]
  | .not => .error (.spanErr "unsupported binary operation token")

/-- stab_print_type reads the entry of the type it describes. -/
def stabPrintType (t : Index) : Analysis Unit := do
  let acx ← get
  let _ ← ofOption (stabType acx.st t)
  return ()

/-- The check of a binary operation; both types are described before the run ends. -/
def checkOperands (lty rty : Index) : Analysis Unit :=
  if lty ≠ rty then do
    stabPrintType lty
    stabPrintType rty
    spanErr "incompatible types for binary operation"
  else return ()

theorem checkOperands_eq_ok {lty rty : Index} {acx acx' : Acx} {u : Unit} {code : List Insn} :
    checkOperands lty rty acx = .ok (u, acx', code) ↔ lty = rty ∧ acx = acx' ∧ code = [] := by
  unfold checkOperands
  by_cases same : lty = rty
  · rw [if_neg (not_not.mpr same), pure_eq_ok]
    simp [same]
  · rw [if_pos same]
    simp [same, bind_eq_ok]

@[simp] theorem checkOperands_bind_eq_ok {β : Type} {lty rty : Index} {f : Unit → Analysis β}
    {acx acx' : Acx} {b : β} {code : List Insn} :
    (checkOperands lty rty >>= f) acx = .ok (b, acx', code) ↔
      lty = rty ∧ f () acx = .ok (b, acx', code) := by
  simp [bind_eq_ok, checkOperands_eq_ok, Unique.exists_iff]

mutual

def analyzeExpr : AstExpr → Bool → Analysis Resu
  | .app name args, _ => analyzeCall name (analyzeArgs args)
  | .bin op left right, _ => do
      let lty ← analyzeExpr left true
      let rty ← analyzeExpr right true
      checkOperands lty.type rty.type
      let lines ← ofExcept (binCode op lty.reg.name rty.reg.name)
      emit lines
      regTakeitback rty.reg
      return ⟨if isRelop op then booleanTypeIdx else lty.type, lty.reg⟩
  | .deref (.path p), _ => do
      let pathty ← typeOfPath p false
      let acx ← get
      let st ← ofOption (stabType acx.st pathty.type)
      match st.ty with
      | .pointer target => do
          emit [.load pathty.reg.name pathty.reg.name 0]
          return ⟨target, pathty.reg⟩
      | _ => spanErr "tried to dereference non-pointer"
  | .deref _, _ => stop .undefined
  | .idx p e, computeRvalue => do
      let pathty ← typeOfPath p false
      let acx ← get
      let pt ← ofOption (stabType acx.st pathty.type)
      match pt.ty with
      | .array _ _ eltType => do
          let ety ← analyzeExpr e true
          if ety.type ≠ integerTypeIdx then spanErr "tried to index array with non-integer"
          else do
            emit (if computeRvalue then [.load ety.reg.name ety.reg.name 0] else [])
            return ⟨eltType, ety.reg⟩
      | _ => spanErr ""
  | .lit s, _ => do
      let reg ← regGimme
      emit [.movLit reg.name s]
      return ⟨integerTypeIdx, reg⟩
  | .path p, computeRvalue => typeOfPath p computeRvalue
  | .un op e, _ => do
      let ety ← analyzeExpr e true
      if op = .not ∧ (ety.type ≠ integerTypeIdx ∨ ety.type ≠ realTypeIdx) then
        spanErr "tried to apply unary +/- to a non-number"
      else if ety.type ≠ booleanTypeIdx then spanErr "tried to boolean-NOT a non-boolean"
      else do
        emit [.not ety.reg.name]
        return ety
  | .addrof _, _ => stop .abort

def analyzeArgs : List AstExpr → List Actual
  | [] => []
  | e :: args => ⟨e, analyzeExpr e⟩ :: analyzeArgs args

end

/-- The part of check_assignability after the switch, on the first component of the path. -/
def checkRoot (name : Name) : Analysis Unit := do
  let acx ← get
  if acx.currentFuncType = .function ∧ stabHasLocalVar acx.st name = false then
    spanErr "assigned to non-local in function"
  else modify fun acx =>
    { acx with retAssigned := acx.retAssigned || decide (acx.currentFuncName = name) }

/-- check_assignability outside the toplevel program. For a dereference the code after the
switch reads the path member of a node that holds none. -/
def checkTarget : AstExpr → Analysis Unit
  | .path p => checkRoot p.first
  | .idx p _ => do
      checkRoot p.first
      checkRoot p.first
  | .deref e => do
      checkTarget e
      stop .undefined
  | _ => stop .abort

def checkAssignability (e : AstExpr) : Analysis Unit := do
  let acx ← get
  if acx.toplevel then return () else checkTarget e

def analyzeCond (cond : AstExpr) (message : String) : Analysis Resu := do
  let cty ← analyzeExpr cond true
  if cty.type ≠ booleanTypeIdx then spanErr message else return cty

mutual

def analyzeStmt : AstStmt → Analysis Unit
  | .null => pure ()
  | .assign lvalue rvalue => do
      let lty ← analyzeExpr lvalue false
      checkAssignability lvalue
      let rty ← analyzeExpr rvalue true
      let acx ← get
      let same ← ofExcept (stabTypesEq acx.st rty.type lty.type)
      if same = false then spanErr "cannot assign incompatible type"
      else do
        emit [.store lty.reg.name rty.reg.name]
        regTakeitback rty.reg
        regTakeitback lty.reg
  | .foor id start finish body => do
      let sty ← analyzeExpr start true
      let ety ← analyzeExpr finish true
      if sty.type ≠ integerTypeIdx then spanErr "type of start not integer"
      else if ety.type ≠ integerTypeIdx then spanErr "type of end not integer"
      else do
        let ity ← typeOfPath (astPath id) false
        if ity.type ≠ integerTypeIdx then spanErr "type of induction variable not integer"
        else do
          modify fun acx => acx.setSt (stabEnter acx.st)
          emit [.push sty.reg.name]
          let l0 ← nextLabel
          let l1 ← nextLabel
          emit [.label (.loc l0), .alu .cmp sty.reg.name ety.reg.name, .jcc .e (.loc l1)]
          analyzeStmt body
          emit [.inc sty.reg.name, .store .rsp sty.reg.name, .jmp (.loc l0), .label (.loc l1)]
          regTakeitback ety.reg
          regTakeitback sty.reg
          withStab fun st => do return ((), ← stabLeave st)
  | .ite cond thenn elze => do
      let cty ← analyzeCond cond "type of if condition not boolean"
      let l0 ← nextLabel
      let l1 ← nextLabel
      emit [.cmpImm cty.reg.name 1, .jcc .ne (.loc l0)]
      regTakeitback cty.reg
      analyzeStmt thenn
      emit [.jmp (.loc l1), .label (.loc l0)]
      analyzeStmt elze
      emit [.label (.loc l1)]
  | .proc name args => do
      let cty ← analyzeCall name (analyzeArgs args)
      regTakeitback cty.reg
  | .stmts body => analyzeStmts body
  | .wdo cond body => do
      let l0 ← nextLabel
      let l1 ← nextLabel
      emit [.label (.loc l0)]
      let cty ← analyzeCond cond "type of while condition not boolean"
      emit [.cmpImm cty.reg.name 1, .jcc .ne (.loc l1)]
      regTakeitback cty.reg
      analyzeStmt body
      emit [.jmp (.loc l0), .label (.loc l1)]

def analyzeStmts : List AstStmt → Analysis Unit
  | [] => pure ()
  | s :: body => do
      analyzeStmt s
      analyzeStmts body

end

/-- The loop of analyze_subprog over the innermost scope: the captured variables, each saved
from the display and replaced in it. -/
def saveDisplay : List (BucketEntry Name) → Analysis (List StabVar)
  | [] => pure []
  | ent :: entries => do
      let acx ← get
      let v ← ofOption (stabVar acx.st ent.val)
      if v.captured then do
        emit [.pushDisplay (v.dispOffset * abiPointerSize),
          .storeDisplayFrame (v.dispOffset * abiPointerSize) v.stackBaseOffset]
        let captured ← saveDisplay entries
        return v :: captured
      else saveDisplay entries

/-- The lines of the loop `for (i = captured->length - 1; i > 0; i--)`. -/
def restoreDisplay (captured : List StabVar) (r : Reg) : List Insn :=
  (captured.drop 1).reverse.flatMap fun v =>
    [.pop r.name, .storeDisplay (v.dispOffset * abiPointerSize) r.name]

/-- The first part of analyze_subprog: the label, the scope and what the declaration puts in
it. Returns the index of the return slot and the final frame offset. -/
def openSubprog (head : AstSig) (name : Name) (types : List AstTypeDecl) (decls : List AstDecls) :
    Analysis (Index × Int) := do
  modify fun acx => { acx with
    rs := regInit
    currentFuncName := name
    retAssigned := false
    currentFuncType := head.type
    label := 0 }
  emit [.global (.sub name), .label (.sub name)]
  modify fun acx => acx.setSt (stabEnter acx.st)
  withStab fun st => do return ((), ← stabAddAllTypes st types)
  let argcount := head.args.length
  let _ ← withStab fun st => stabAddAllDecls st false head.args (8 * (argcount + 1))
  let off ← withStab fun st => stabAddAllDecls st true decls 0
  let retty ← withStab fun st => stabResolveRetty st head.retty
  withStab fun st => do
    let (retslot, off, st) ← stabAddVar st name retty off true
    return ((retslot, off), st)

def prologue (off : Int) : Analysis (List StabVar) := do
  emit [.subImm .rsp (off - abiPointerSize)]
  let acx ← get
  saveDisplay acx.st.innermost.vars.entries

def checkReturn : Analysis Unit := do
  let acx ← get
  let f := acx.currentFuncName
  if acx.retAssigned = false ∧ acx.currentFuncType = .function then
    spanErr s!"return value of {f} not assigned"
  else return ()

def copyResult (retslot : Index) : Analysis Unit := do
  let acx ← get
  if acx.currentFuncType = .function then do
    let r ← regGimme
    let slot ← ofOption (stabVar acx.st retslot)
    emit [.load r.name .rbp slot.stackBaseOffset, .store .rbp r.name]
    regTakeitback r
  else return ()

def epilogue (retslot : Index) (off : Int) (captured : List StabVar) : Analysis Unit := do
  let r ← regGimme
  emit (restoreDisplay captured r)
  regTakeitback r
  copyResult retslot
  emit [.addImm .rsp (off - abiPointerSize), .ret]

def ownCode (retslot : Index) (off : Int) (body : AstStmt) : Analysis Unit := do
  let captured ← prologue off
  analyzeStmt body
  checkReturn
  epilogue retslot off captured

def closeSubprog (old : Acx) : Analysis Unit := do
  withStab fun st => do return ((), ← stabLeave st)
  modify fun acx => { acx with
    currentFuncName := old.currentFuncName
    label := old.label
    retAssigned := old.retAssigned
    currentFuncType := old.currentFuncType
    rs := old.rs }

mutual

def analyzeSubprog : AstSubdecl → Analysis Unit
  | .mk head name decls subprogs types body => do
      let old ← get
      let (retslot, off) ← openSubprog head name types decls
      analyzeSubprogs subprogs
      ownCode retslot off body
      closeSubprog old

def analyzeSubprogs : List AstSubdecl → Analysis Unit
  | [] => pure ()
  | d :: subprogs => do
      withStab fun st => do return ((), ← stabAddFunc st d.name d.head)
      analyzeSubprog d
      analyzeSubprogs subprogs

end

def registerInput (st : Stab) : Stab := stabAddMagicFunc (stabAddMagicFunc st .readln) .read
def registerOutput (st : Stab) : Stab := stabAddMagicFunc (stabAddMagicFunc st .writeln) .write

def doImports (st : Stab) : List Name → Except Stop Stab
  | [] => .ok st
  | imported :: args =>
      if imported = "input" then doImports (registerInput st) args
      else if imported = "output" then doImports (registerOutput st) args
      else .error (.spanErr s!"no such library: `{imported}`")

def storeGlobals : List (BucketEntry Name) → Analysis Unit
  | [] => pure ()
  | ent :: entries => do
      let acx ← get
      let v ← ofOption (stabVar acx.st ent.val)
      if v.captured then do
        let r ← regGimme
        emit [.lea r.name v.stackBaseOffset,
          .storeDisplay (v.dispOffset * abiPointerSize) r.name]
        regTakeitback r
        storeGlobals entries
      else storeGlobals entries

def header : List Insn :=
  [.comment " vim: ft=nasm", .externSub "write_integer", .externSub "write_newline", .section ".bss",
    .reserve (0 + 1 * abiPointerAlign), .section ".text"]

def exitCode : List Insn :=
  [.comment " and we're done!", .movImm .rax 60, .alu .xor .rdi .rdi, .syscall]

/-- The context analyze starts with, in the global scope. -/
def initialAcx : Acx where
  rs := regInit
  st := stabNew
  dispOffset := 0
  toplevel := false
  currentFuncType := .procedure
  retAssigned := false
  currentFuncName := "@~unassignable~@"
  label := 0

/-- The global declarations. Returns the final frame offset. -/
def openProgram (prog : AstProgram) : Analysis Int := do
  emit header
  withStab fun st => do return ((), ← doImports st prog.args)
  withStab fun st => do return ((), ← stabAddAllTypes st prog.types)
  withStab fun st => stabAddAllDecls st true prog.decls 0

def mainCode (off : Int) (body : AstStmt) : Analysis Unit := do
  emit [.global .main, .label .main, .mov .rbp .rsp]
  emit [.comment "", .subImm .rsp off]
  let acx ← get
  storeGlobals acx.st.innermost.vars.entries
  modify fun acx => { acx with toplevel := true }
  analyzeStmt body
  emit exitCode

def analyzeProgram (prog : AstProgram) : Analysis Unit := do
  let off ← openProgram prog
  analyzeSubprogs prog.subprogs
  mainCode off prog.body

def analyze (prog : AstProgram) : Except Stop (Acx × List Insn) :=
  match analyzeProgram prog initialAcx with
  | .error s => .error s
  | .ok (_, acx, code) => .ok (acx, code)

end Dragon
