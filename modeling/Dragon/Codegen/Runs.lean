import Dragon.Codegen.Analysis

/-! The accepted runs of the analyzer, as relations.

A run relates a node and the context it starts in to the results, the context
after it and the printed lines. There is one constructor for each way a node is
accepted, so what a run can do is said once and every invariant is an induction
over runs.
-/

set_option autoImplicit false

namespace Dragon

open Analysis

/-! ## Paths -/

/-- The lines type_of_path prints after it has its register. -/
inductive PathLine (r : RegName) : Insn → Prop where
  | load : PathLine r (.load r r 0)
  | addImm (k : Int) : PathLine r (.addImm r k)
  | loadDisplay (d : Int) : PathLine r (.loadDisplay r d)
  | lea (off : Int) : PathLine r (.lea r off)

def PathLines (lines : RegName → List Insn) : Prop := ∀ r, ∀ i ∈ lines r, PathLine r i

theorem PathLines.append {first second : RegName → List Insn} (one : PathLines first)
    (two : PathLines second) : PathLines fun r => first r ++ second r := by
  intro r i member
  rcases List.mem_append.mp member with member | member
  · exact one r i member
  · exact two r i member

theorem pathLines_nil : PathLines fun _ => [] := fun _ _ member => nomatch member

theorem pathLines_one {f : RegName → Insn} (line : ∀ r, PathLine r (f r)) :
    PathLines fun r => [f r] := by
  intro r i member
  rw [List.mem_singleton.mp member]
  exact line r

/-- The context after a use of a variable: a nonlocal one is captured. -/
def Acx.use (acx : Acx) (name : Name) (idx : Index) (v : StabVar) : Acx :=
  if stabHasLocalVar acx.st name = false ∧ v.captured = false then
    { acx with
      st := acx.st.setVar idx { v with captured := true, dispOffset := acx.dispOffset }
      dispOffset := acx.dispOffset + 1 }
  else acx

theorem Acx.use_types (acx : Acx) (name : Name) (idx : Index) (v : StabVar) :
    (acx.use name idx v).st.types = acx.st.types := by
  unfold Acx.use
  split <;> rfl

theorem findField_run {reg : Reg} {n : Name} {fields : List (Name × Index)} {offset : Int}
    {acx acx' : Acx} {ty : StabResolvedType} {code : List Insn}
    (run : findField reg n fields offset acx = .ok (ty, acx', code)) :
    acx' = acx ∧ ∃ lines, PathLines lines ∧ code = lines reg.name ∧
      ∀ (reg' : Reg) (acx₂ : Acx), acx₂.st = acx.st →
        findField reg' n fields offset acx₂ = .ok (ty, acx₂, lines reg'.name) := by
  induction fields generalizing offset code with
  | nil => simp [findField] at run
  | cons field fields ih =>
    obtain ⟨name, type⟩ := field
    simp only [findField, get_bind_eq_ok, ofOption_bind_eq_ok] at run ⊢
    obtain ⟨t, found, run⟩ := run
    split at run
    next here =>
      subst here
      cases shape : t.ty <;>
        simp only [shape, ofOption_bind_eq_ok, emit_bind_eq_ok, pure_eq_ok] at run
      case pointer target =>
        obtain ⟨u, target, _, ⟨rfl, rfl, rfl⟩, rfl⟩ := run
        refine ⟨rfl, fun r => [.load r r 0], pathLines_one fun _ => .load, rfl, ?_⟩
        intro reg' acx₂ same
        rw [same]
        refine ⟨t, found, ?_⟩
        simp [shape, target, pure_eq_ok]
      all_goals
        obtain ⟨_, ⟨rfl, rfl, rfl⟩, rfl⟩ := run
        refine ⟨rfl, fun r => [.addImm r offset], pathLines_one fun _ => .addImm _, rfl, ?_⟩
        intro reg' acx₂ same
        rw [same]
        refine ⟨t, found, ?_⟩
        simp [shape, pure_eq_ok]
    next other =>
      obtain ⟨rfl, lines, path, code, again⟩ := ih run
      refine ⟨rfl, lines, path, code, ?_⟩
      intro reg' acx₂ same
      rw [same]
      exact ⟨t, found, by rw [if_neg other]; exact again reg' acx₂ same⟩

theorem fieldLoop_run {reg : Reg} {count : Nat} {first : Bool} {temp : List Name}
    {ty : StabResolvedType} {acx acx' : Acx} {u : Unit} {code : List Insn}
    (run : fieldLoop reg count first temp ty acx = .ok (u, acx', code)) :
    acx' = acx ∧ ∃ lines, PathLines lines ∧ code = lines reg.name ∧
      ∀ (reg' : Reg) (acx₂ : Acx), acx₂.st = acx.st →
        fieldLoop reg' count first temp ty acx₂ = .ok ((), acx₂, lines reg'.name) := by
  induction count generalizing first temp ty acx code with
  | zero =>
    simp only [fieldLoop, pure_eq_ok] at run
    obtain ⟨-, rfl, rfl⟩ := run
    exact ⟨rfl, fun _ => [], pathLines_nil, rfl, fun _ _ _ => rfl⟩
  | succ count ih =>
    cases first with
    | true => exact ih run
    | false =>
      cases temp with
      | nil => simp [fieldLoop] at run
      | cons n next =>
        simp only [fieldLoop] at run ⊢
        split at run
        next last =>
          simp only [last, if_true] at run ⊢
          exact ih run
        next more =>
          simp only [more, if_false]
          cases ty <;> try simp at run
          case record fields =>
            simp only [bind_eq_ok] at run ⊢
            obtain ⟨ty, acx₁, code₁, code₂, found, run, rfl⟩ := run
            obtain ⟨rfl, lines₁, path₁, rfl, again₁⟩ := findField_run found
            obtain ⟨rfl, lines₂, path₂, rfl, again₂⟩ := ih run
            refine ⟨rfl, fun r => lines₁ r ++ lines₂ r, path₁.append path₂, rfl, ?_⟩
            intro reg' acx₂ same
            exact ⟨ty, acx₂, _, _, again₁ reg' acx₂ same, again₂ reg' acx₂ same, rfl⟩

theorem pathAddress_run {name : Name} {idx : Index} {reg : Reg} {acx acx' : Acx} {v : StabVar}
    {code : List Insn} (run : pathAddress name idx reg acx = .ok (v, acx', code)) :
    ∃ v₀, stabVar acx.st idx = some v₀ ∧ acx' = acx.use name idx v₀ ∧ v.type = v₀.type ∧
      ∃ lines, PathLines lines ∧ code = lines reg.name ∧
        (stabHasLocalVar acx.st name = true → lines = fun r => [.lea r v₀.stackBaseOffset]) ∧
        ∀ (reg' : Reg) (rs : RegisterSet), pathAddress name idx reg' (acx.setRs rs) =
          .ok (v, (acx.use name idx v₀).setRs rs, lines reg'.name) := by
  simp only [pathAddress, get_bind_eq_ok, ofOption_bind_eq_ok] at run ⊢
  obtain ⟨v₀, found, run⟩ := run
  refine ⟨v₀, found, ?_⟩
  split at run
  next nonlocal =>
    rw [bind_eq_ok] at run
    simp only [emit_bind_eq_ok, pure_eq_ok] at run
    obtain ⟨w, acx₁, _, _, captured, ⟨_, ⟨rfl, rfl, rfl⟩, rfl⟩, rfl⟩ := run
    have used : acx₁ = acx.use name idx v₀ ∧ w.type = v₀.type ∧ ∀ rs : RegisterSet,
        capture idx v₀ (acx.setRs rs) = .ok (w, (acx.use name idx v₀).setRs rs, []) := by
      simp only [capture] at captured ⊢
      split at captured
      next already =>
        simp only [Except.ok.injEq, Prod.mk.injEq] at captured
        obtain ⟨rfl, rfl, rfl⟩ := captured
        simp [Acx.use, already]
      next fresh =>
        simp only [Except.ok.injEq, Prod.mk.injEq] at captured
        obtain ⟨rfl, rfl, rfl⟩ := captured
        simp [Acx.use, fresh, nonlocal, Acx.setRs]
    have silent : ∀ {code₁ : List Insn}, capture idx v₀ acx = .ok (w, acx₁, code₁) → code₁ = [] := by
      intro code₁ again
      have rest := used.2.2 acx.rs
      change capture idx v₀ acx = _ at rest
      rw [rest] at again
      simp only [Except.ok.injEq, Prod.mk.injEq] at again
      exact again.2.2.symm
    rw [silent captured]
    refine ⟨used.1, used.2.1, fun r => [.loadDisplay r (w.dispOffset * abiPointerAlign)],
      pathLines_one fun _ => .loadDisplay _, rfl, ?_, ?_⟩
    · intro isLocal
      rw [nonlocal] at isLocal
      cases isLocal
    · intro reg' rs
      refine ⟨v₀, found, ?_⟩
      have unset : stabHasLocalVar (acx.setRs rs).st name = false := nonlocal
      simp only [unset, if_true]
      rw [bind_eq_ok]
      exact ⟨w, _, [], _, used.2.2 rs, by simp [pure_eq_ok], rfl⟩
  next isLocal =>
    simp only [emit_bind_eq_ok, pure_eq_ok] at run
    obtain ⟨_, ⟨rfl, rfl, rfl⟩, rfl⟩ := run
    have isTrue : stabHasLocalVar acx.st name = true := by simpa using isLocal
    have unused : acx.use name idx v₀ = acx := by simp [Acx.use, isTrue]
    rw [unused]
    refine ⟨rfl, rfl, fun r => [.lea r v₀.stackBaseOffset], pathLines_one fun _ => .lea _, rfl,
      fun _ => rfl, ?_⟩
    intro reg' rs
    have set : stabHasLocalVar (acx.setRs rs).st name = true := isTrue
    refine ⟨v₀, found, ?_⟩
    simp [set, pure_eq_ok]

theorem pathAddress_accepted (name : Name) (reg : Reg) {idx : Index} {acx : Acx} {v : StabVar}
    (found : stabVar acx.st idx = some v) :
    ∃ w acx' code, pathAddress name idx reg acx = .ok (w, acx', code) := by
  have captures : ∃ w acx', capture idx v acx = .ok (w, acx', []) := by
    unfold capture
    split
    · exact ⟨_, _, rfl⟩
    · exact ⟨_, _, rfl⟩
  obtain ⟨w, acx', captured⟩ := captures
  unfold pathAddress
  simp only [get_bind_eq_ok, ofOption_bind_eq_ok]
  split
  · refine ⟨w, acx', [.loadDisplay reg.name (w.dispOffset * abiPointerAlign)], v, found, ?_⟩
    rw [bind_eq_ok]
    exact ⟨w, acx', [], _, captured, emit_bind_eq_ok.mpr ⟨[], pure_eq_ok.mpr ⟨rfl, rfl, rfl⟩, rfl⟩, rfl⟩
  · refine ⟨v, acx, [.lea reg.name v.stackBaseOffset], v, found, ?_⟩
    exact emit_bind_eq_ok.mpr ⟨[], pure_eq_ok.mpr ⟨rfl, rfl, rfl⟩, rfl⟩

/-- What an accepted type_of_path does: the register it takes only names the operands. -/
structure PathRun (p : AstPath) (rv : Bool) (acx : Acx) (v : StabVar) (acx' : Acx)
    (lines : RegName → List Insn) : Prop where
  found : stabVar acx.st (stabResolveVar acx.st p.first) = some v
  resolved : stabResolveVar acx.st p.first ≠ resolveFailure
  used : acx' = acx.use p.first (stabResolveVar acx.st p.first) v
  path : PathLines lines
  simple : p.rest = [] → stabHasLocalVar acx.st p.first = true → lines = fun r =>
    .lea r v.stackBaseOffset :: if rv then [.load r r 0] else []
  again : ∀ rs : RegisterSet, typeOfPath p rv (acx.setRs rs) =
    .ok (⟨v.type, rs.gimme.1⟩, acx'.setRs rs.gimme.2.1, rs.gimme.2.2 ++ lines rs.gimme.1.name)

theorem Acx.use_setRs (acx : Acx) (rs : RegisterSet) (name : Name) (idx : Index) (v : StabVar) :
    (acx.setRs rs).use name idx v = (acx.use name idx v).setRs rs := by
  unfold Acx.use Acx.setRs
  dsimp only
  split <;> rfl

@[simp] theorem Acx.setRs_setRs (acx : Acx) (rs rs' : RegisterSet) :
    (acx.setRs rs).setRs rs' = acx.setRs rs' := rfl

@[simp] theorem Acx.setRs_self (acx : Acx) : acx.setRs acx.rs = acx := rfl

@[simp] theorem Acx.setRs_rs (acx : Acx) (rs : RegisterSet) : (acx.setRs rs).rs = rs := rfl

@[simp] theorem Acx.setRs_st (acx : Acx) (rs : RegisterSet) : (acx.setRs rs).st = acx.st := rfl

theorem typeOfPath_run {p : AstPath} {rv : Bool} {acx acx' : Acx} {res : Resu} {code : List Insn}
    (run : typeOfPath p rv acx = .ok (res, acx', code)) :
    ∃ v acx₁ lines, PathRun p rv acx v acx₁ lines ∧ res = ⟨v.type, acx.rs.gimme.1⟩ ∧
      acx' = acx₁.setRs acx.rs.gimme.2.1 ∧
      code = acx.rs.gimme.2.2 ++ lines acx.rs.gimme.1.name := by
  simp only [typeOfPath, get_bind_eq_ok] at run
  split at run
  · simp at run
  next resolved =>
    rw [regGimme_bind_eq_ok] at run
    obtain ⟨_, run, rfl⟩ := run
    rw [bind_eq_ok] at run
    obtain ⟨v, acx₁, lines₁, _, address, run, rfl⟩ := run
    rw [ofOption_bind_eq_ok] at run
    obtain ⟨t, type, run⟩ := run
    rw [bind_eq_ok] at run
    obtain ⟨_, acx₂, lines₂, _, loop, run, rfl⟩ := run
    simp only [emit_bind_eq_ok, pure_eq_ok] at run
    obtain ⟨_, ⟨rfl, rfl, rfl⟩, rfl⟩ := run
    obtain ⟨v₀, found₀, rfl, sameType, linesA, pathA, rfl, onLocal, againA⟩ := pathAddress_run address
    obtain ⟨rfl, linesF, pathF, rfl, againF⟩ := fieldLoop_run loop
    refine ⟨v₀, acx.use p.first (stabResolveVar acx.st p.first) v₀,
      fun r => linesA r ++ (linesF r ++ if rv then [.load r r 0] else []),
      ⟨found₀, resolved, rfl, ?_, ?_, ?_⟩, by rw [sameType], ?_, by simp⟩
    · refine pathA.append (pathF.append ?_)
      cases rv with
      | true => exact pathLines_one fun _ => .load
      | false => exact pathLines_nil
    · intro single isLocal
      have noFields : ∀ r, linesF r = [] := by
        intro r
        have here := againF ⟨r, 0, false⟩ _ rfl
        simp only [AstPath.components, single, List.length_singleton, fieldLoop, pure_eq_ok] at here
        exact here.2.2
      funext r
      rw [onLocal isLocal, noFields]
      rfl
    · intro rs
      have found : ¬ stabResolveVar (acx.setRs rs).st p.first = resolveFailure := resolved
      simp only [typeOfPath, get_bind_eq_ok, found, if_false]
      rw [regGimme_bind_eq_ok]
      refine ⟨linesA rs.gimme.1.name ++ (linesF rs.gimme.1.name ++ if rv then
        [.load rs.gimme.1.name rs.gimme.1.name 0] else []), ?_, rfl⟩
      rw [bind_eq_ok]
      refine ⟨v, _, _, _, againA rs.gimme.1 rs.gimme.2.1, ?_, rfl⟩
      rw [ofOption_bind_eq_ok]
      refine ⟨t, ?_, ?_⟩
      · simpa [Acx.use_setRs] using type
      · rw [bind_eq_ok]
        refine ⟨(), _, _, _, againF rs.gimme.1 _ ?_, ?_, rfl⟩
        · simp [Acx.use_setRs]
        · simp [pure_eq_ok, sameType, Acx.use_setRs]
    · rw [Acx.use_setRs]

/-! ## Expressions and calls -/

/-- The type a call resolves its name to, when it does. -/
def calleeOf (st : Stab) (p : AstPath) : Option StabType :=
  if p.rest = [] ∧ stabResolveFunc st p.first ≠ resolveFailure then
    stabType st (stabResolveFunc st p.first)
  else none

/-- What analyze_expr and the functions it calls are run on. -/
inductive Node where
  | expr (e : AstExpr) (rv : Bool)
  | call (p : AstPath) (args : List AstExpr)
  | actuals (args : List AstExpr) (formals : List Index)
  | writes (args : List AstExpr)
  | reads (newline : List Insn) (args : List AstExpr)

def Magic.node (which : Magic) (args : List AstExpr) : Node :=
  match which with
  | .write | .writeln => .writes args
  | .read => .reads [] args
  | .readln => .reads [.call "read_newline"] args

def Magic.finish : Magic → List Insn
  | .writeln => [.call "write_newline"]
  | .write | .read | .readln => []

/-- The lines of a call after its argument loop, from the registers in use there. -/
def finishCall (f : Name) (count : Nat) (rs : RegisterSet) : List Insn :=
  rs.gimme.2.2 ++ (enterCall f count ++ [.pop rs.gimme.1.name, .pop .rbp] ++
    (rs.gimme.2.1.restored rs.gimme.1).map fun i => .pop (REGS i))

inductive Run : Node → Acx → List Resu → Acx → List Insn → Prop where
  | lit {s : Name} {rv : Bool} {acx : Acx} :
      Run (.expr (.lit s) rv) acx [⟨integerTypeIdx, acx.rs.gimme.1⟩]
        (acx.setRs acx.rs.gimme.2.1) (acx.rs.gimme.2.2 ++ [.movLit acx.rs.gimme.1.name s])
  | path {p : AstPath} {rv : Bool} {acx acx₁ : Acx} {v : StabVar} {lines : RegName → List Insn}
      (path : PathRun p rv acx v acx₁ lines) :
      Run (.expr (.path p) rv) acx [⟨v.type, acx.rs.gimme.1⟩]
        (acx₁.setRs acx.rs.gimme.2.1) (acx.rs.gimme.2.2 ++ lines acx.rs.gimme.1.name)
  | deref {p : AstPath} {rv : Bool} {acx acx₁ : Acx} {v : StabVar} {lines : RegName → List Insn}
      {t : StabType} {target : Index} (path : PathRun p false acx v acx₁ lines)
      (found : stabType acx₁.st v.type = some t) (pointer : t.ty = .pointer target) :
      Run (.expr (.deref (.path p)) rv) acx [⟨target, acx.rs.gimme.1⟩]
        (acx₁.setRs acx.rs.gimme.2.1) (acx.rs.gimme.2.2 ++ lines acx.rs.gimme.1.name ++
          [.load acx.rs.gimme.1.name acx.rs.gimme.1.name 0])
  | idx {p : AstPath} {e : AstExpr} {rv : Bool} {acx acx₁ acx₂ : Acx} {v : StabVar}
      {lines : RegName → List Insn} {t : StabType} {lower upper : Int} {elt : Index} {ety : Resu}
      {code : List Insn} (path : PathRun p false acx v acx₁ lines)
      (found : stabType acx₁.st v.type = some t) (array : t.ty = .array lower upper elt)
      (index : Run (.expr e true) (acx₁.setRs acx.rs.gimme.2.1) [ety] acx₂ code)
      (integer : ety.type = integerTypeIdx) :
      Run (.expr (.idx p e) rv) acx [⟨elt, ety.reg⟩] acx₂
        (acx.rs.gimme.2.2 ++ lines acx.rs.gimme.1.name ++
          (code ++ if rv then [.load ety.reg.name ety.reg.name 0] else []))
  | bin {op : Token} {left right : AstExpr} {rv : Bool} {acx acx₁ acx₂ : Acx} {lty rty : Resu}
      {code₁ code₂ lines : List Insn} (first : Run (.expr left true) acx [lty] acx₁ code₁)
      (second : Run (.expr right true) acx₁ [rty] acx₂ code₂) (same : lty.type = rty.type)
      (print : binCode op lty.reg.name rty.reg.name = .ok lines) :
      Run (.expr (.bin op left right) rv) acx
        [⟨if isRelop op then booleanTypeIdx else lty.type, lty.reg⟩]
        (acx₂.setRs (acx₂.rs.takeitback rty.reg).1)
        (code₁ ++ (code₂ ++ (lines ++ (acx₂.rs.takeitback rty.reg).2)))
  | un {op : Token} {e : AstExpr} {rv : Bool} {acx acx₁ : Acx} {ety : Resu} {code : List Insn}
      (operand : Run (.expr e true) acx [ety] acx₁ code) (sign : op ≠ .not)
      (boolean : ety.type = booleanTypeIdx) :
      Run (.expr (.un op e) rv) acx [ety] acx₁ (code ++ [.not ety.reg.name])
  | app {p : AstPath} {args : List AstExpr} {rv : Bool} {acx acx₁ : Acx} {r : Resu}
      {code : List Insn} (call : Run (.call p args) acx [r] acx₁ code) :
      Run (.expr (.app p args) rv) acx [r] acx₁ code
  | magic {p : AstPath} {args : List AstExpr} {pt : StabType} {which : Magic} {acx acx₁ : Acx}
      {results : List Resu} {code : List Insn} (callee : calleeOf acx.st p = some pt)
      (magic : pt.magic = some which) (body : Run (which.node args) acx results acx₁ code) :
      Run (.call p args) acx [magicResu] acx₁ (code ++ which.finish)
  | call {p : AstPath} {args : List AstExpr} {pt : StabType} {type : Subprogs}
      {formals : List Index} {retty : Index} {acx acx₁ : Acx} {results : List Resu}
      {code : List Insn} (callee : calleeOf acx.st p = some pt) (magic : pt.magic = none)
      (func : pt.ty = .func type formals retty)
      (actuals : Run (.actuals args formals) acx results acx₁ code) :
      Run (.call p args) acx [⟨retty, acx₁.rs.gimme.1⟩] (acx₁.setRs acx₁.rs.gimme.2.1)
        ((acx.rs.saved.map fun i => .push (REGS i)) ++ (code ++
          finishCall p.first args.length acx₁.rs))
  | noActuals {acx : Acx} : Run (.actuals [] []) acx [] acx []
  | actual {e : AstExpr} {args : List AstExpr} {ft : Index} {formals : List Index}
      {acx acx₁ acx₂ : Acx} {et : Resu} {v : StabVar} {same : Bool} {results : List Resu}
      {code₁ code₂ : List Insn} (value : Run (.expr e true) acx [et] acx₁ code₁)
      (formal : stabVar acx₁.st ft = some v) (types : stabTypesEq acx₁.st et.type v.type = .ok same)
      (rest : Run (.actuals args formals) acx₁ results acx₂ code₂) :
      Run (.actuals (e :: args) (ft :: formals)) acx (et :: results) acx₂
        (code₁ ++ .push et.reg.name :: code₂)
  | wrote {acx : Acx} : Run (.writes []) acx [] acx []
  | write {e : AstExpr} {args : List AstExpr} {acx acx₁ acx₂ : Acx} {r : Resu} {f : Name}
      {results : List Resu} {code₁ code₂ : List Insn}
      (value : Run (.expr e true) acx [r] acx₁ code₁) (callit : routine "write" r.type = some f)
      (rest : Run (.writes args) (acx₁.setRs (acx₁.rs.takeitback r.reg).1) results acx₂ code₂) :
      Run (.writes (e :: args)) acx (r :: results) acx₂
        (code₁ ++ ([.push r.reg.name, .call f, .addImm .rsp 8] ++
          ((acx₁.rs.takeitback r.reg).2 ++ code₂)))
  | read_ {newline : List Insn} {acx : Acx} : Run (.reads newline []) acx [] acx []
  | read {newline : List Insn} {e : AstExpr} {args : List AstExpr} {acx acx₁ acx₂ : Acx} {r : Resu}
      {f : Name} {results : List Resu} {code₁ code₂ : List Insn} (lvalue : isLvalue e = true)
      (value : Run (.expr e false) acx [r] acx₁ code₁) (callit : routine "read" r.type = some f)
      (rest : Run (.reads newline args) (acx₁.setRs (acx₁.rs.takeitback r.reg).1) results acx₂
        code₂) :
      Run (.reads newline (e :: args)) acx (r :: results) acx₂
        (code₁ ++ ([.push r.reg.name, .call f, .addImm .rsp 8] ++ newline ++
          ((acx₁.rs.takeitback r.reg).2 ++ code₂)))

/-! ## Accepted expressions have runs -/

theorem routineCall_run {which : Name} {r : Resu} {newline code : List Insn} {acx acx' : Acx}
    {u : Unit} :
    routineCall which r newline acx = .ok (u, acx', code) ↔
      ∃ f, routine which r.type = some f ∧ acx' = acx.setRs (acx.rs.takeitback r.reg).1 ∧
        code = [.push r.reg.name, .call f, .addImm .rsp 8] ++ newline ++
          (acx.rs.takeitback r.reg).2 := by
  unfold routineCall
  cases routine which r.type with
  | none => simp
  | some f =>
    simp only [emit_bind_eq_ok, regTakeitback_eq_ok, Option.some.injEq]
    constructor
    · rintro ⟨_, ⟨rfl, rfl⟩, rfl⟩
      exact ⟨f, rfl, rfl, rfl⟩
    · rintro ⟨_, rfl, rfl, rfl⟩
      exact ⟨_, ⟨rfl, rfl⟩, rfl⟩

theorem analyzeCall_run {p : AstPath} {args : List AstExpr} {acx acx' : Acx} {r : Resu}
    {code : List Insn}
    (actuals : ∀ {formals acx acx' u code}, args.length = formals.length →
      pushActuals (analyzeArgs args) formals acx = .ok (u, acx', code) →
        ∃ results, Run (.actuals args formals) acx results acx' code)
    (writes : ∀ {acx acx' u code}, writeArgs (analyzeArgs args) acx = .ok (u, acx', code) →
        ∃ results, Run (.writes args) acx results acx' code)
    (reads : ∀ {newline acx acx' u code},
      readArgs newline (analyzeArgs args) acx = .ok (u, acx', code) →
        ∃ results, Run (.reads newline args) acx results acx' code)
    (length : (analyzeArgs args).length = args.length)
    (run : analyzeCall p (analyzeArgs args) acx = .ok (r, acx', code)) :
    Run (.call p args) acx [r] acx' code := by
  unfold analyzeCall at run
  split at run
  · simp at run
  next simple =>
    simp only [get_bind_eq_ok] at run
    split at run
    · simp at run
    next resolved =>
      simp only [ofOption_bind_eq_ok] at run
      obtain ⟨pt, found, run⟩ := run
      have callee : calleeOf acx.st p = some pt := by
        simp only [calleeOf, ne_eq, resolved, not_false_eq_true, and_true]
        rw [if_pos (by simpa using simple)]
        exact found
      cases magic : pt.magic with
      | some which =>
        simp only [magic] at run
        rw [bind_eq_ok] at run
        obtain ⟨u, acx₁, code₁, _, body, run, rfl⟩ := run
        simp only [pure_eq_ok] at run
        obtain ⟨rfl, rfl, rfl⟩ := run
        rw [List.append_nil]
        cases which with
        | write =>
          obtain ⟨results, body⟩ := writes body
          simpa only [Magic.finish, List.append_nil] using Run.magic callee magic body
        | writeln =>
          simp only [analyzeMagic] at body
          rw [bind_eq_ok] at body
          obtain ⟨_, _, _, _, body, last, rfl⟩ := body
          simp only [emit_eq_ok] at last
          obtain ⟨rfl, rfl⟩ := last
          obtain ⟨results, body⟩ := writes body
          exact Run.magic callee magic body
        | read =>
          obtain ⟨results, body⟩ := reads body
          simpa only [Magic.finish, List.append_nil] using Run.magic callee magic body
        | readln =>
          obtain ⟨results, body⟩ := reads body
          simpa only [Magic.finish, List.append_nil] using Run.magic callee magic body
      | none =>
        simp only [magic, callSubprog, saveRegisters_bind_eq_ok] at run
        obtain ⟨_, run, rfl⟩ := run
        cases func : pt.ty <;> simp only [func, stop_ne_ok] at run
        case func type formals retty =>
          split at run
          · simp at run
          next count =>
            rw [bind_eq_ok] at run
            obtain ⟨_, acx₁, code₁, _, pushed, run, rfl⟩ := run
            simp only [regGimme_bind_eq_ok, emit_bind_eq_ok, restoreRegistersExcept_bind_eq_ok,
              pure_eq_ok] at run
            obtain ⟨_, ⟨_, ⟨_, ⟨rfl, rfl, rfl⟩, rfl⟩, rfl⟩, rfl⟩ := run
            rw [length] at count
            obtain ⟨results, pushed⟩ := actuals (by simpa using count) pushed
            have done := Run.call callee magic func pushed
            simpa only [finishCall, length, List.append_nil, Acx.setRs_rs] using done

theorem analyzeArgs_length (args : List AstExpr) : (analyzeArgs args).length = args.length := by
  induction args with
  | nil => rfl
  | cons e args ih => simp only [analyzeArgs, List.length_cons, ih]

mutual

theorem analyzeExpr_run : ∀ (e : AstExpr) {rv : Bool} {acx acx' : Acx} {r : Resu}
    {code : List Insn}, analyzeExpr e rv acx = .ok (r, acx', code) →
      Run (.expr e rv) acx [r] acx' code
  | .app p args, _, _, _, _, _, run => by
      simp only [analyzeExpr] at run
      have ⟨actuals, writes, reads⟩ := analyzeArgs_run args
      exact .app (analyzeCall_run actuals writes reads (analyzeArgs_length args) run)
  | .bin op left right, _, _, _, _, _, run => by
      simp only [analyzeExpr] at run
      rw [bind_eq_ok] at run
      obtain ⟨lty, acx₁, code₁, _, first, run, rfl⟩ := run
      rw [bind_eq_ok] at run
      obtain ⟨rty, acx₂, code₂, _, second, run, rfl⟩ := run
      simp only [checkOperands_bind_eq_ok, ofExcept_bind_eq_ok, emit_bind_eq_ok,
        regTakeitback_bind_eq_ok, pure_eq_ok] at run
      obtain ⟨same, lines, print, _, ⟨_, ⟨rfl, rfl, rfl⟩, rfl⟩, rfl⟩ := run
      rw [List.append_nil]
      exact .bin (analyzeExpr_run left first) (analyzeExpr_run right second) same print
  | .deref (.path p), _, _, _, _, _, run => by
      simp only [analyzeExpr] at run
      rw [bind_eq_ok] at run
      obtain ⟨pathty, acx₁, code₁, _, path, run, rfl⟩ := run
      obtain ⟨v, acx₂, lines, taken, rfl, rfl, rfl⟩ := typeOfPath_run path
      simp only [get_bind_eq_ok, ofOption_bind_eq_ok] at run
      obtain ⟨t, found, run⟩ := run
      cases pointer : t.ty <;>
        simp only [pointer, spanErr_ne_ok, emit_bind_eq_ok, pure_eq_ok] at run
      case pointer target =>
        obtain ⟨_, ⟨rfl, rfl, rfl⟩, rfl⟩ := run
        exact .deref taken found pointer
  | .deref (.app ..), _, _, _, _, _, run => by simp [analyzeExpr] at run
  | .deref (.bin ..), _, _, _, _, _, run => by simp [analyzeExpr] at run
  | .deref (.deref _), _, _, _, _, _, run => by simp [analyzeExpr] at run
  | .deref (.idx ..), _, _, _, _, _, run => by simp [analyzeExpr] at run
  | .deref (.lit _), _, _, _, _, _, run => by simp [analyzeExpr] at run
  | .deref (.un ..), _, _, _, _, _, run => by simp [analyzeExpr] at run
  | .deref (.addrof _), _, _, _, _, _, run => by simp [analyzeExpr] at run
  | .idx p e, _, _, _, _, _, run => by
      simp only [analyzeExpr] at run
      rw [bind_eq_ok] at run
      obtain ⟨pathty, acx₁, code₁, _, path, run, rfl⟩ := run
      obtain ⟨v, acx₂, lines, taken, rfl, rfl, rfl⟩ := typeOfPath_run path
      simp only [get_bind_eq_ok, ofOption_bind_eq_ok] at run
      obtain ⟨t, found, run⟩ := run
      cases array : t.ty <;> simp only [array, spanErr_ne_ok] at run
      case array lower upper elt =>
        rw [bind_eq_ok] at run
        obtain ⟨ety, acx₃, code₃, _, index, run, rfl⟩ := run
        split at run
        · simp at run
        next integer =>
          simp only [emit_bind_eq_ok, pure_eq_ok] at run
          obtain ⟨_, ⟨rfl, rfl, rfl⟩, rfl⟩ := run
          rw [List.append_nil]
          exact .idx taken found array (analyzeExpr_run e index) (by simpa using integer)
  | .lit s, _, _, _, _, _, run => by
      simp only [analyzeExpr, regGimme_bind_eq_ok, emit_bind_eq_ok, pure_eq_ok] at run
      obtain ⟨_, ⟨_, ⟨rfl, rfl, rfl⟩, rfl⟩, rfl⟩ := run
      exact .lit
  | .path p, _, _, _, _, _, run => by
      simp only [analyzeExpr] at run
      obtain ⟨v, acx₂, lines, path, rfl, rfl, rfl⟩ := typeOfPath_run run
      exact .path path
  | .un op e, _, _, _, _, _, run => by
      simp only [analyzeExpr] at run
      rw [bind_eq_ok] at run
      obtain ⟨ety, acx₁, code₁, _, operand, run, rfl⟩ := run
      split at run
      · simp at run
      next sign =>
        split at run
        · simp at run
        next boolean =>
          simp only [emit_bind_eq_ok, pure_eq_ok] at run
          obtain ⟨_, ⟨rfl, rfl, rfl⟩, rfl⟩ := run
          have type : ety.type = booleanTypeIdx := by simpa using boolean
          refine .un (analyzeExpr_run e operand) ?_ type
          rintro rfl
          simp [type, booleanTypeIdx, integerTypeIdx] at sign
  | .addrof _, _, _, _, _, _, run => by simp [analyzeExpr] at run

theorem analyzeArgs_run : ∀ (args : List AstExpr),
    (∀ {formals acx acx' u code}, args.length = formals.length →
      pushActuals (analyzeArgs args) formals acx = .ok (u, acx', code) →
        ∃ results, Run (.actuals args formals) acx results acx' code) ∧
    (∀ {acx acx' u code}, writeArgs (analyzeArgs args) acx = .ok (u, acx', code) →
        ∃ results, Run (.writes args) acx results acx' code) ∧
    (∀ {newline acx acx' u code},
      readArgs newline (analyzeArgs args) acx = .ok (u, acx', code) →
        ∃ results, Run (.reads newline args) acx results acx' code)
  | [] => by
      refine ⟨?_, ?_, ?_⟩
      · intro formals acx acx' u code length run
        cases formals with
        | cons => simp at length
        | nil =>
          simp only [analyzeArgs, pushActuals, pure_eq_ok] at run
          obtain ⟨-, rfl, rfl⟩ := run
          exact ⟨[], .noActuals⟩
      · intro acx acx' u code run
        simp only [analyzeArgs, writeArgs, pure_eq_ok] at run
        obtain ⟨-, rfl, rfl⟩ := run
        exact ⟨[], .wrote⟩
      · intro newline acx acx' u code run
        simp only [analyzeArgs, readArgs, pure_eq_ok] at run
        obtain ⟨-, rfl, rfl⟩ := run
        exact ⟨[], .read_⟩
  | e :: args => by
      have ⟨actuals, writes, reads⟩ := analyzeArgs_run args
      refine ⟨?_, ?_, ?_⟩
      · intro formals acx acx' u code length run
        cases formals with
        | nil => simp at length
        | cons ft formals =>
          simp only [analyzeArgs, pushActuals] at run
          rw [bind_eq_ok] at run
          obtain ⟨et, acx₁, code₁, _, value, run, rfl⟩ := run
          simp only [get_bind_eq_ok, ofOption_bind_eq_ok, ofExcept_bind_eq_ok, emit_bind_eq_ok] at run
          obtain ⟨v, formal, same, types, _, run, rfl⟩ := run
          obtain ⟨results, rest⟩ := actuals (by simpa using length) run
          exact ⟨et :: results, .actual (analyzeExpr_run e value) formal types rest⟩
      · intro acx acx' u code run
        simp only [analyzeArgs, writeArgs] at run
        rw [bind_eq_ok] at run
        obtain ⟨r, acx₁, code₁, _, value, run, rfl⟩ := run
        rw [bind_eq_ok] at run
        obtain ⟨_, acx₂, code₂, _, callit, run, rfl⟩ := run
        obtain ⟨f, printed, rfl, rfl⟩ := routineCall_run.mp callit
        obtain ⟨results, rest⟩ := writes run
        refine ⟨r :: results, ?_⟩
        have done := Run.write (analyzeExpr_run e value) printed rest
        simpa only [List.append_nil, List.append_assoc] using done
      · intro newline acx acx' u code run
        simp only [analyzeArgs, readArgs] at run
        split at run
        next lvalue =>
          rw [bind_eq_ok] at run
          obtain ⟨r, acx₁, code₁, _, value, run, rfl⟩ := run
          rw [bind_eq_ok] at run
          obtain ⟨_, acx₂, code₂, _, callit, run, rfl⟩ := run
          obtain ⟨f, printed, rfl, rfl⟩ := routineCall_run.mp callit
          obtain ⟨results, rest⟩ := reads run
          refine ⟨r :: results, ?_⟩
          have done := Run.read lvalue (analyzeExpr_run e value) printed rest
          simpa only [List.append_assoc] using done
        · simp at run

end

/-! ## Runs are accepted -/

namespace Node

/-- The function a node stands for accepts it with these results. -/
def Accepted (node : Node) (acx : Acx) (results : List Resu) (acx' : Acx) (code : List Insn) :
    Prop :=
  match node with
  | .expr e rv => ∃ r, results = [r] ∧ analyzeExpr e rv acx = .ok (r, acx', code)
  | .call p args => ∃ r, results = [r] ∧ analyzeCall p (analyzeArgs args) acx = .ok (r, acx', code)
  | .actuals args formals => args.length = formals.length ∧
      pushActuals (analyzeArgs args) formals acx = .ok ((), acx', code)
  | .writes args => writeArgs (analyzeArgs args) acx = .ok ((), acx', code)
  | .reads newline args => readArgs newline (analyzeArgs args) acx = .ok ((), acx', code)

end Node

theorem PathRun.accepted {p : AstPath} {rv : Bool} {acx acx₁ : Acx} {v : StabVar}
    {lines : RegName → List Insn} (path : PathRun p rv acx v acx₁ lines) :
    typeOfPath p rv acx = .ok (⟨v.type, acx.rs.gimme.1⟩, acx₁.setRs acx.rs.gimme.2.1,
      acx.rs.gimme.2.2 ++ lines acx.rs.gimme.1.name) := path.again acx.rs

theorem analyzeCall_callee {p : AstPath} {args : List Actual} {acx acx' : Acx} {pt : StabType}
    {r : Resu} {code : List Insn} (callee : calleeOf acx.st p = some pt) :
    analyzeCall p args acx = .ok (r, acx', code) ↔
      (match pt.magic with
        | some which => do
            analyzeMagic which args
            return magicResu
        | none => callSubprog p.first pt args) acx = .ok (r, acx', code) := by
  unfold calleeOf at callee
  split at callee
  next resolved =>
    obtain ⟨simple, resolved⟩ := resolved
    unfold analyzeCall
    rw [if_neg (by simpa using simple)]
    simp only [get_bind_eq_ok, resolved, if_false, ofOption_bind_eq_ok, callee]
    constructor
    · rintro ⟨_, ⟨⟩, run⟩
      exact run
    · intro run
      exact ⟨pt, rfl, run⟩
  next => cases callee

theorem Run.accepted {node : Node} {acx acx' : Acx} {results : List Resu} {code : List Insn}
    (run : Run node acx results acx' code) : node.Accepted acx results acx' code := by
  induction run with
  | lit => exact ⟨_, rfl, by simp [analyzeExpr, pure_eq_ok]⟩
  | path path => exact ⟨_, rfl, by simpa only [analyzeExpr] using path.accepted⟩
  | deref path found pointer =>
    refine ⟨_, rfl, ?_⟩
    simp only [analyzeExpr]
    rw [bind_eq_ok]
    refine ⟨_, _, _, _, path.accepted, ?_, rfl⟩
    simp only [get_bind_eq_ok, ofOption_bind_eq_ok, Acx.setRs_st]
    exact ⟨_, found, by simp [pointer, pure_eq_ok]⟩
  | @idx p e rv acx acx₁ acx₂ v lines t lower upper elt ety code path found array index integer ih =>
    obtain ⟨_, same, ih⟩ := ih
    obtain rfl := List.singleton_inj.mp same
    refine ⟨_, rfl, ?_⟩
    simp only [analyzeExpr]
    rw [bind_eq_ok]
    refine ⟨_, _, _, _, path.accepted, ?_, rfl⟩
    simp only [get_bind_eq_ok, ofOption_bind_eq_ok, Acx.setRs_st]
    refine ⟨_, found, ?_⟩
    simp only [array]
    rw [bind_eq_ok]
    refine ⟨_, _, _, _, ih, ?_, rfl⟩
    simp [integer, pure_eq_ok]
  | @bin op left right rv acx acx₁ acx₂ lty rty code₁ code₂ lines first second same print ih₁ ih₂ =>
    obtain ⟨_, one, ih₁⟩ := ih₁
    obtain rfl := List.singleton_inj.mp one
    obtain ⟨_, two, ih₂⟩ := ih₂
    obtain rfl := List.singleton_inj.mp two
    refine ⟨_, rfl, ?_⟩
    simp only [analyzeExpr]
    rw [bind_eq_ok]
    refine ⟨_, _, _, _, ih₁, ?_, rfl⟩
    rw [bind_eq_ok]
    refine ⟨_, _, _, _, ih₂, ?_, rfl⟩
    simp [same, print, pure_eq_ok]
  | @un op e rv acx acx₁ ety code operand sign boolean ih =>
    obtain ⟨_, same, ih⟩ := ih
    obtain rfl := List.singleton_inj.mp same
    refine ⟨_, rfl, ?_⟩
    simp only [analyzeExpr]
    rw [bind_eq_ok]
    refine ⟨_, _, _, _, ih, ?_, rfl⟩
    simp [sign, boolean, pure_eq_ok]
  | app call ih =>
    obtain ⟨_, same, ih⟩ := ih
    obtain rfl := List.singleton_inj.mp same
    exact ⟨_, rfl, by simpa only [analyzeExpr] using ih⟩
  | @magic p args pt which acx acx₁ results code callee magic body ih =>
    refine ⟨_, rfl, ?_⟩
    rw [analyzeCall_callee callee, magic]
    simp only
    rw [bind_eq_ok]
    refine ⟨(), _, _, _, ?_, pure_eq_ok.mpr ⟨rfl, rfl, rfl⟩, (List.append_nil _).symm⟩
    cases which with
    | write =>
      rw [Magic.finish, List.append_nil]
      exact ih
    | read =>
      rw [Magic.finish, List.append_nil]
      exact ih
    | readln =>
      rw [Magic.finish, List.append_nil]
      exact ih
    | writeln =>
      simp only [analyzeMagic]
      rw [bind_eq_ok]
      exact ⟨(), _, _, _, ih, emit_eq_ok.mpr ⟨rfl, rfl⟩, rfl⟩
  | @call p args pt type formals retty acx acx₁ results code callee magic func actuals ih =>
    obtain ⟨count, ih⟩ := ih
    refine ⟨_, rfl, ?_⟩
    rw [analyzeCall_callee callee, magic]
    simp only [callSubprog, saveRegisters_bind_eq_ok]
    refine ⟨_, ?_, rfl⟩
    simp only [func, analyzeArgs_length, count, ne_eq, not_true_eq_false, if_false]
    rw [bind_eq_ok]
    refine ⟨(), _, _, _, ih, ?_, rfl⟩
    simp [finishCall, pure_eq_ok]
  | noActuals => exact ⟨rfl, by simp [analyzeArgs, pushActuals, pure_eq_ok]⟩
  | actual value formal types rest ih₁ ih₂ =>
    obtain ⟨_, same, ih₁⟩ := ih₁
    obtain rfl := List.singleton_inj.mp same
    obtain ⟨count, ih₂⟩ := ih₂
    refine ⟨by simp [count], ?_⟩
    simp only [analyzeArgs, pushActuals]
    rw [bind_eq_ok]
    refine ⟨_, _, _, _, ih₁, ?_, rfl⟩
    simp only [get_bind_eq_ok, ofOption_bind_eq_ok, ofExcept_bind_eq_ok, emit_bind_eq_ok]
    exact ⟨_, formal, _, types, _, ih₂, rfl⟩
  | wrote => simp [Node.Accepted, analyzeArgs, writeArgs, pure_eq_ok]
  | write value callit rest ih₁ ih₂ =>
    obtain ⟨_, same, ih₁⟩ := ih₁
    obtain rfl := List.singleton_inj.mp same
    simp only [Node.Accepted, analyzeArgs, writeArgs]
    rw [bind_eq_ok]
    refine ⟨_, _, _, _, ih₁, ?_, rfl⟩
    rw [bind_eq_ok]
    exact ⟨(), _, _, _, routineCall_run.mpr ⟨_, callit, rfl, rfl⟩, ih₂, by simp⟩
  | read_ => simp [Node.Accepted, analyzeArgs, readArgs, pure_eq_ok]
  | read lvalue value callit rest ih₁ ih₂ =>
    obtain ⟨_, same, ih₁⟩ := ih₁
    obtain rfl := List.singleton_inj.mp same
    simp only [Node.Accepted, analyzeArgs, readArgs, lvalue, if_true]
    rw [bind_eq_ok]
    refine ⟨_, _, _, _, ih₁, ?_, rfl⟩
    rw [bind_eq_ok]
    exact ⟨(), _, _, _, routineCall_run.mpr ⟨_, callit, rfl, rfl⟩, ih₂, by simp⟩

/-! ## Statements -/

namespace Acx

def setAssigned (acx : Acx) (b : Bool) : Acx := { acx with retAssigned := b }

/-- The context after two labels were numbered. -/
def afterLabels (acx : Acx) : Acx := { acx with label := acx.label + 2 }

end Acx

theorem checkRoot_run {name : Name} {acx acx' : Acx} {u : Unit} {code : List Insn}
    (run : checkRoot name acx = .ok (u, acx', code)) :
    code = [] ∧ ∃ b, acx' = acx.setAssigned b ∧
      ∀ rs : RegisterSet, checkRoot name (acx.setRs rs) = .ok ((), acx'.setRs rs, []) := by
  simp only [checkRoot, get_bind_eq_ok] at run ⊢
  split at run
  · simp at run
  next allowed =>
    simp only [modify_eq_ok] at run
    obtain ⟨rfl, rfl⟩ := run
    refine ⟨rfl, _, rfl, ?_⟩
    intro rs
    have allowed' : ¬ ((acx.setRs rs).currentFuncType = .function ∧
      stabHasLocalVar (acx.setRs rs).st name = false) := allowed
    simp only [allowed', if_false]
    rfl

structure TargetRun (e : AstExpr) (acx acx' : Acx) : Prop where
  assigned : ∃ b, acx' = acx.setAssigned b
  again : ∀ rs : RegisterSet, checkAssignability e (acx.setRs rs) = .ok ((), acx'.setRs rs, [])

theorem TargetRun.accepted {e : AstExpr} {acx acx' : Acx} (run : TargetRun e acx acx') :
    checkAssignability e acx = .ok ((), acx', []) := by
  have again := run.again acx.rs
  obtain ⟨b, rfl⟩ := run.assigned
  exact again

theorem checkAssignability_run {e : AstExpr} {acx acx' : Acx} {u : Unit} {code : List Insn}
    (run : checkAssignability e acx = .ok (u, acx', code)) : TargetRun e acx acx' ∧ code = [] := by
  simp only [checkAssignability, get_bind_eq_ok] at run
  split at run
  next toplevel =>
    simp only [pure_eq_ok] at run
    obtain ⟨-, rfl, rfl⟩ := run
    refine ⟨⟨⟨acx.retAssigned, rfl⟩, ?_⟩, rfl⟩
    intro rs
    have top : (acx.setRs rs).toplevel = true := toplevel
    simp only [checkAssignability, get_bind_eq_ok, top, if_true, pure_eq_ok, and_self]
  next inner =>
    have unset : ∀ rs : RegisterSet, ¬ (acx.setRs rs).toplevel = true := fun _ => inner
    cases e with
    | path p =>
      obtain ⟨rfl, b, assigned, again⟩ := checkRoot_run run
      refine ⟨⟨⟨b, assigned⟩, ?_⟩, rfl⟩
      intro rs
      simp only [checkAssignability, get_bind_eq_ok, unset rs, checkTarget]
      exact again rs
    | idx p index =>
      simp only [checkTarget] at run
      rw [bind_eq_ok] at run
      obtain ⟨_, acx₁, _, _, first, second, rfl⟩ := run
      obtain ⟨rfl, b₁, rfl, again₁⟩ := checkRoot_run first
      obtain ⟨rfl, b₂, rfl, again₂⟩ := checkRoot_run second
      refine ⟨⟨⟨b₂, rfl⟩, ?_⟩, rfl⟩
      intro rs
      simp only [checkAssignability, get_bind_eq_ok, unset rs, checkTarget]
      exact bind_eq_ok.mpr ⟨(), _, [], [], again₁ rs, again₂ rs, rfl⟩
    | deref target =>
      simp only [checkTarget] at run
      rw [bind_eq_ok] at run
      obtain ⟨_, _, _, _, _, last, _⟩ := run
      simp at last
    | app => simp [checkTarget] at run
    | bin => simp [checkTarget] at run
    | lit => simp [checkTarget] at run
    | un => simp [checkTarget] at run
    | addrof => simp [checkTarget] at run

inductive StmtNode where
  | stmt (s : AstStmt)
  | stmts (body : List AstStmt)

inductive StmtRun : StmtNode → Acx → Acx → List Insn → Prop where
  | null {acx : Acx} : StmtRun (.stmt .null) acx acx []
  | assign {lvalue rvalue : AstExpr} {acx acx₁ acx₂ acx₃ acx₄ acx₅ : Acx} {lty rty : Resu}
      {code₁ code₂ : List Insn} (left : Run (.expr lvalue false) acx [lty] acx₁ code₁)
      (target : TargetRun lvalue acx₁ acx₂)
      (right : Run (.expr rvalue true) acx₂ [rty] acx₃ code₂)
      (same : stabTypesEq acx₃.st rty.type lty.type = .ok true)
      (first : acx₄ = acx₃.setRs (acx₃.rs.takeitback rty.reg).1)
      (second : acx₅ = acx₄.setRs (acx₄.rs.takeitback lty.reg).1) :
      StmtRun (.stmt (.assign lvalue rvalue)) acx acx₅
        (code₁ ++ (code₂ ++ ([.store lty.reg.name rty.reg.name] ++
          ((acx₃.rs.takeitback rty.reg).2 ++ (acx₄.rs.takeitback lty.reg).2))))
  | foor {id : Name} {start finish : AstExpr} {body : AstStmt}
      {acx acx₁ acx₂ acx₃ acx₄ acx₅ acx₆ : Acx} {sty ety : Resu} {v : StabVar}
      {lines : RegName → List Insn} {st : Stab} {code₁ code₂ code₃ : List Insn}
      (first : Run (.expr start true) acx [sty] acx₁ code₁)
      (last : Run (.expr finish true) acx₁ [ety] acx₂ code₂)
      (startInteger : sty.type = integerTypeIdx) (finishInteger : ety.type = integerTypeIdx)
      (path : PathRun (astPath id) false acx₂ v acx₃ lines) (integer : v.type = integerTypeIdx)
      (loop : StmtRun (.stmt body)
        ((acx₃.setRs acx₂.rs.gimme.2.1).setSt (stabEnter acx₃.st)).afterLabels acx₄ code₃)
      (back : acx₅ = acx₄.setRs (acx₄.rs.takeitback ety.reg).1)
      (back' : acx₆ = acx₅.setRs (acx₅.rs.takeitback sty.reg).1)
      (leave : stabLeave acx₆.st = .ok st) :
      StmtRun (.stmt (.foor id start finish body)) acx (acx₆.setSt st)
        (code₁ ++ (code₂ ++ (acx₂.rs.gimme.2.2 ++ lines acx₂.rs.gimme.1.name ++
          ([.push sty.reg.name] ++ ([.label (.loc acx₃.label), .alu .cmp sty.reg.name ety.reg.name,
            .jcc .e (.loc (acx₃.label + 1))] ++ (code₃ ++
          ([.inc sty.reg.name, .store .rsp sty.reg.name, .jmp (.loc acx₃.label),
            .label (.loc (acx₃.label + 1))] ++
          ((acx₄.rs.takeitback ety.reg).2 ++ (acx₅.rs.takeitback sty.reg).2))))))))
  | ite {cond : AstExpr} {thenn elze : AstStmt} {acx acx₁ acx₂ acx₃ : Acx} {cty : Resu}
      {code₁ code₂ code₃ : List Insn} (test : Run (.expr cond true) acx [cty] acx₁ code₁)
      (boolean : cty.type = booleanTypeIdx)
      (yes : StmtRun (.stmt thenn) (acx₁.afterLabels.setRs (acx₁.rs.takeitback cty.reg).1) acx₂ code₂)
      (no : StmtRun (.stmt elze) acx₂ acx₃ code₃) :
      StmtRun (.stmt (.ite cond thenn elze)) acx acx₃
        (code₁ ++ ([.cmpImm cty.reg.name 1, .jcc .ne (.loc acx₁.label)] ++
          ((acx₁.rs.takeitback cty.reg).2 ++ (code₂ ++
          ([.jmp (.loc (acx₁.label + 1)), .label (.loc acx₁.label)] ++ (code₃ ++
          [.label (.loc (acx₁.label + 1))]))))))
  | proc {p : AstPath} {args : List AstExpr} {acx acx₁ : Acx} {cty : Resu} {code : List Insn}
      (call : Run (.call p args) acx [cty] acx₁ code) :
      StmtRun (.stmt (.proc p args)) acx (acx₁.setRs (acx₁.rs.takeitback cty.reg).1)
        (code ++ (acx₁.rs.takeitback cty.reg).2)
  | stmts {body : List AstStmt} {acx acx₁ : Acx} {code : List Insn}
      (run : StmtRun (.stmts body) acx acx₁ code) : StmtRun (.stmt (.stmts body)) acx acx₁ code
  | wdo {cond : AstExpr} {body : AstStmt} {acx acx₁ acx₂ : Acx} {cty : Resu}
      {code₁ code₂ : List Insn} (test : Run (.expr cond true) acx.afterLabels [cty] acx₁ code₁)
      (boolean : cty.type = booleanTypeIdx)
      (loop : StmtRun (.stmt body) (acx₁.setRs (acx₁.rs.takeitback cty.reg).1) acx₂ code₂) :
      StmtRun (.stmt (.wdo cond body)) acx acx₂
        ([.label (.loc acx.label)] ++ (code₁ ++ ([.cmpImm cty.reg.name 1,
          .jcc .ne (.loc (acx.label + 1))] ++ ((acx₁.rs.takeitback cty.reg).2 ++ (code₂ ++
          [.jmp (.loc acx.label), .label (.loc (acx.label + 1))])))))
  | nil {acx : Acx} : StmtRun (.stmts []) acx acx []
  | cons {s : AstStmt} {body : List AstStmt} {acx acx₁ acx₂ : Acx} {code₁ code₂ : List Insn}
      (first : StmtRun (.stmt s) acx acx₁ code₁) (rest : StmtRun (.stmts body) acx₁ acx₂ code₂) :
      StmtRun (.stmts (s :: body)) acx acx₂ (code₁ ++ code₂)

theorem analyzeCond_run {cond : AstExpr} {message : String} {acx acx' : Acx} {cty : Resu}
    {code : List Insn} (run : analyzeCond cond message acx = .ok (cty, acx', code)) :
    Run (.expr cond true) acx [cty] acx' code ∧ cty.type = booleanTypeIdx := by
  simp only [analyzeCond] at run
  rw [bind_eq_ok] at run
  obtain ⟨cty', acx₁, code₁, _, test, run, rfl⟩ := run
  split at run
  · simp at run
  next boolean =>
    simp only [pure_eq_ok] at run
    obtain ⟨rfl, rfl, rfl⟩ := run
    rw [List.append_nil]
    exact ⟨analyzeExpr_run cond test, by simpa using boolean⟩

theorem Run.cond {cond : AstExpr} {message : String} {acx acx' : Acx} {cty : Resu}
    {code : List Insn} (test : Run (.expr cond true) acx [cty] acx' code)
    (boolean : cty.type = booleanTypeIdx) :
    analyzeCond cond message acx = .ok (cty, acx', code) := by
  obtain ⟨_, same, test⟩ := test.accepted
  obtain rfl := List.singleton_inj.mp same
  simp only [analyzeCond]
  rw [bind_eq_ok]
  exact ⟨_, _, _, _, test, by simp [boolean, pure_eq_ok], (List.append_nil _).symm⟩

mutual

theorem analyzeStmt_run : ∀ (s : AstStmt) {acx acx' : Acx} {u : Unit} {code : List Insn},
    analyzeStmt s acx = .ok (u, acx', code) → StmtRun (.stmt s) acx acx' code
  | .null, _, _, _, _, run => by
      simp only [analyzeStmt, pure_eq_ok] at run
      obtain ⟨-, rfl, rfl⟩ := run
      exact .null
  | .assign lvalue rvalue, _, _, _, _, run => by
      simp only [analyzeStmt] at run
      rw [bind_eq_ok] at run
      obtain ⟨lty, acx₁, code₁, _, left, run, rfl⟩ := run
      rw [bind_eq_ok] at run
      obtain ⟨_, acx₂, _, _, target, run, rfl⟩ := run
      obtain ⟨allowed, rfl⟩ := checkAssignability_run target
      rw [bind_eq_ok] at run
      obtain ⟨rty, acx₃, code₃, _, right, run, rfl⟩ := run
      simp only [get_bind_eq_ok, ofExcept_bind_eq_ok] at run
      obtain ⟨same, types, run⟩ := run
      split at run
      · simp at run
      next equal =>
        simp only [emit_bind_eq_ok, regTakeitback_bind_eq_ok, regTakeitback_eq_ok] at run
        obtain ⟨_, ⟨_, ⟨rfl, rfl⟩, rfl⟩, rfl⟩ := run
        have isTrue : same = true := by simpa using equal
        exact .assign (analyzeExpr_run _ left) allowed (analyzeExpr_run _ right) (isTrue ▸ types)
          rfl rfl
  | .foor id start finish body, _, _, _, _, run => by
      simp only [analyzeStmt] at run
      rw [bind_eq_ok] at run
      obtain ⟨sty, acx₁, code₁, _, first, run, rfl⟩ := run
      rw [bind_eq_ok] at run
      obtain ⟨ety, acx₂, code₂, _, last, run, rfl⟩ := run
      split at run
      · simp at run
      next startInteger =>
        split at run
        · simp at run
        next finishInteger =>
          rw [bind_eq_ok] at run
          obtain ⟨ity, acx₃, _, _, path, run, rfl⟩ := run
          obtain ⟨v, acx₄, lines, taken, rfl, rfl, rfl⟩ := typeOfPath_run path
          split at run
          · simp at run
          next integer =>
            simp only [modify_bind_eq_ok, emit_bind_eq_ok, nextLabel_bind_eq_ok] at run
            obtain ⟨_, ⟨_, run, rfl⟩, rfl⟩ := run
            rw [bind_eq_ok] at run
            obtain ⟨_, acx₅, code₅, _, loop, run, rfl⟩ := run
            simp only [emit_bind_eq_ok, regTakeitback_bind_eq_ok, withStab_eq_ok,
              except_bind_eq_ok] at run
            obtain ⟨_, ⟨_, ⟨_, ⟨st, ⟨st', leave, pure⟩, rfl, rfl⟩, rfl⟩, rfl⟩, rfl⟩ := run
            cases pure
            rw [List.append_nil]
            have done := StmtRun.foor (analyzeExpr_run _ first) (analyzeExpr_run _ last)
              (by simpa using startInteger) (by simpa using finishInteger) taken
              (by simpa using integer) (analyzeStmt_run _ loop) rfl rfl leave
            exact done
  | .ite cond thenn elze, _, _, _, _, run => by
      simp only [analyzeStmt] at run
      rw [bind_eq_ok] at run
      obtain ⟨cty, acx₁, code₁, _, test, run, rfl⟩ := run
      obtain ⟨test, boolean⟩ := analyzeCond_run test
      simp only [emit_bind_eq_ok, nextLabel_bind_eq_ok, regTakeitback_bind_eq_ok] at run
      obtain ⟨_, ⟨_, run, rfl⟩, rfl⟩ := run
      rw [bind_eq_ok] at run
      obtain ⟨_, acx₂, code₂, _, yes, run, rfl⟩ := run
      simp only [emit_bind_eq_ok] at run
      obtain ⟨_, run, rfl⟩ := run
      rw [bind_eq_ok] at run
      obtain ⟨_, acx₃, code₃, _, no, run, rfl⟩ := run
      simp only [emit_eq_ok] at run
      obtain ⟨rfl, rfl⟩ := run
      exact .ite test boolean (analyzeStmt_run _ yes) (analyzeStmt_run _ no)
  | .proc p args, _, _, _, _, run => by
      simp only [analyzeStmt] at run
      rw [bind_eq_ok] at run
      obtain ⟨cty, acx₁, code₁, _, call, run, rfl⟩ := run
      simp only [regTakeitback_eq_ok] at run
      obtain ⟨rfl, rfl⟩ := run
      have ⟨actuals, writes, reads⟩ := analyzeArgs_run args
      exact .proc (analyzeCall_run actuals writes reads (analyzeArgs_length args) call)
  | .stmts body, _, _, _, _, run => by
      simp only [analyzeStmt] at run
      exact .stmts (analyzeStmts_run body run)
  | .wdo cond body, _, _, _, _, run => by
      simp only [analyzeStmt, nextLabel_bind_eq_ok, emit_bind_eq_ok] at run
      obtain ⟨_, run, rfl⟩ := run
      rw [bind_eq_ok] at run
      obtain ⟨cty, acx₁, code₁, _, test, run, rfl⟩ := run
      obtain ⟨test, boolean⟩ := analyzeCond_run test
      simp only [emit_bind_eq_ok, regTakeitback_bind_eq_ok] at run
      obtain ⟨_, ⟨_, run, rfl⟩, rfl⟩ := run
      rw [bind_eq_ok] at run
      obtain ⟨_, acx₂, code₂, _, loop, run, rfl⟩ := run
      simp only [emit_eq_ok] at run
      obtain ⟨rfl, rfl⟩ := run
      exact .wdo test boolean (analyzeStmt_run _ loop)

theorem analyzeStmts_run : ∀ (body : List AstStmt) {acx acx' : Acx} {u : Unit} {code : List Insn},
    analyzeStmts body acx = .ok (u, acx', code) → StmtRun (.stmts body) acx acx' code
  | [], _, _, _, _, run => by
      simp only [analyzeStmts, pure_eq_ok] at run
      obtain ⟨-, rfl, rfl⟩ := run
      exact .nil
  | s :: body, _, _, _, _, run => by
      simp only [analyzeStmts] at run
      rw [bind_eq_ok] at run
      obtain ⟨_, acx₁, code₁, _, first, run, rfl⟩ := run
      exact .cons (analyzeStmt_run s first) (analyzeStmts_run body run)

end

namespace StmtNode

def Accepted (node : StmtNode) (acx acx' : Acx) (code : List Insn) : Prop :=
  match node with
  | .stmt s => analyzeStmt s acx = .ok ((), acx', code)
  | .stmts body => analyzeStmts body acx = .ok ((), acx', code)

end StmtNode

theorem Run.expr_accepted {e : AstExpr} {rv : Bool} {acx acx' : Acx} {r : Resu} {code : List Insn}
    (run : Run (.expr e rv) acx [r] acx' code) : analyzeExpr e rv acx = .ok (r, acx', code) := by
  obtain ⟨_, same, run⟩ := run.accepted
  obtain rfl := List.singleton_inj.mp same
  exact run

theorem StmtRun.accepted {node : StmtNode} {acx acx' : Acx} {code : List Insn}
    (run : StmtRun node acx acx' code) : node.Accepted acx acx' code := by
  induction run with
  | null => simp [StmtNode.Accepted, analyzeStmt, pure_eq_ok]
  | assign left target right same first second =>
    subst first second
    simp only [StmtNode.Accepted, analyzeStmt]
    rw [bind_eq_ok]
    refine ⟨_, _, _, _, left.expr_accepted, ?_, rfl⟩
    rw [bind_eq_ok]
    refine ⟨_, _, _, _, target.accepted, ?_, rfl⟩
    rw [bind_eq_ok]
    refine ⟨_, _, _, _, right.expr_accepted, ?_, rfl⟩
    simp [same]
  | foor first last startInteger finishInteger path integer loop back back' leave ih =>
    subst back back'
    simp only [StmtNode.Accepted, analyzeStmt]
    rw [bind_eq_ok]
    refine ⟨_, _, _, _, first.expr_accepted, ?_, rfl⟩
    rw [bind_eq_ok]
    refine ⟨_, _, _, _, last.expr_accepted, ?_, rfl⟩
    simp only [startInteger, finishInteger, ne_eq, not_true_eq_false, if_false]
    rw [bind_eq_ok]
    refine ⟨_, _, _, _, path.accepted, ?_, rfl⟩
    simp only [integer, not_true_eq_false, if_false, modify_bind_eq_ok, emit_bind_eq_ok,
      nextLabel_bind_eq_ok]
    refine ⟨_, ⟨_, ?_, rfl⟩, rfl⟩
    rw [bind_eq_ok]
    refine ⟨_, _, _, _, ih, ?_, rfl⟩
    simp only [emit_bind_eq_ok, regTakeitback_bind_eq_ok, withStab_eq_ok, except_bind_eq_ok]
    exact ⟨_, ⟨_, ⟨_, ⟨_, ⟨_, leave, rfl⟩, rfl, rfl⟩, rfl⟩, by rw [List.append_nil]⟩, rfl⟩
  | ite test boolean yes no ih₁ ih₂ =>
    simp only [StmtNode.Accepted, analyzeStmt]
    rw [bind_eq_ok]
    refine ⟨_, _, _, _, test.cond boolean, ?_, rfl⟩
    simp only [emit_bind_eq_ok, nextLabel_bind_eq_ok, regTakeitback_bind_eq_ok]
    refine ⟨_, ⟨_, ?_, rfl⟩, rfl⟩
    rw [bind_eq_ok]
    refine ⟨_, _, _, _, ih₁, ?_, rfl⟩
    simp only [emit_bind_eq_ok]
    refine ⟨_, ?_, rfl⟩
    rw [bind_eq_ok]
    exact ⟨_, _, _, _, ih₂, emit_eq_ok.mpr ⟨rfl, rfl⟩, rfl⟩
  | proc call =>
    obtain ⟨_, same, call⟩ := call.accepted
    obtain rfl := List.singleton_inj.mp same
    simp only [StmtNode.Accepted, analyzeStmt]
    rw [bind_eq_ok]
    exact ⟨_, _, _, _, call, regTakeitback_eq_ok.mpr ⟨rfl, rfl⟩, rfl⟩
  | stmts run ih => simpa only [StmtNode.Accepted, analyzeStmt] using ih
  | wdo test boolean loop ih =>
    simp only [StmtNode.Accepted, analyzeStmt, nextLabel_bind_eq_ok, emit_bind_eq_ok]
    refine ⟨_, ?_, rfl⟩
    rw [bind_eq_ok]
    refine ⟨_, _, _, _, test.cond boolean, ?_, rfl⟩
    simp only [emit_bind_eq_ok, regTakeitback_bind_eq_ok]
    refine ⟨_, ⟨_, ?_, rfl⟩, rfl⟩
    rw [bind_eq_ok]
    exact ⟨_, _, _, _, ih, emit_eq_ok.mpr ⟨rfl, rfl⟩, rfl⟩
  | nil => simp [StmtNode.Accepted, analyzeStmts, pure_eq_ok]
  | cons first rest ih₁ ih₂ =>
    simp only [StmtNode.Accepted, analyzeStmts]
    rw [bind_eq_ok]
    exact ⟨_, _, _, _, ih₁, ih₂, rfl⟩

end Dragon
