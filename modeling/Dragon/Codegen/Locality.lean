import Dragon.Codegen.Statements
import Dragon.Codegen.Tables

/-! What counts as local at a statement.

type_of_path and check_assignability look into the innermost scope only. At a
statement inside a for loop that is the scope of the loop, which is empty; at
any other it is the scope of the subprogram, which also has the formals of the
subprograms declared in it.
-/

set_option autoImplicit false

namespace Dragon

open Analysis Stab

def AstExpr.root : AstExpr → Option Name
  | .path p => some p.first
  | .idx p _ => some p.first
  | .deref e => e.root
  | _ => none

def AstExpr.isDeref : AstExpr → Bool
  | .deref _ => true
  | _ => false

/-- type_of_path addresses a variable off rbp, and so not through the display. -/
def AddressedOffRbp (n : Name) (acx : Acx) : Prop :=
  ∀ reg, ∃ v, stabVar acx.st (stabResolveVar acx.st n) = some v ∧
    pathAddress n (stabResolveVar acx.st n) reg acx = .ok (v, acx, [.lea reg.name v.stackBaseOffset])

/-- A context of the same subprogram with the same scopes, as after the analysis of a target. -/
structure Sees (at_ acx : Acx) : Prop where
  owner : acx.owner = at_.owner
  scopes : SameScopes at_.st acx.st

theorem analyzeExpr_sees {e : AstExpr} {rv : Bool} {at_ acx : Acx} {r : Resu} {code : List Insn}
    (run : analyzeExpr e rv at_ = .ok (r, acx, code)) : Sees at_ acx :=
  ⟨(analyzeExpr_run e run).owner, (analyzeExpr_run e run).scopes⟩

def nonLocalMessage : String := "assigned to non-local in function"

/-- At a statement the names of the subprogram are local, and in a function an assignment is
accepted if its target's root is one of them, and rejected if the root is a variable of an
enclosing scope. -/
structure LocalityKept (d : AstSubdecl) (start at_ : Acx) (s : AstStmt) : Prop where
  locals : ∀ n ∈ d.declared, AddressedOffRbp n at_
  accepts : d.head.type = .function → ∀ lvalue rvalue n, s = .assign lvalue rvalue →
    lvalue.root = some n → n ∈ d.declared →
      ∀ acx, Sees at_ acx → ∃ acx', checkAssignability lvalue acx = .ok ((), acx', [])
  rejects : d.head.type = .function → ∀ lvalue rvalue n, s = .assign lvalue rvalue →
    lvalue.root = some n → n ∉ d.declared → stabResolveVar start.st n ≠ resolveFailure →
      ∀ acx, Sees at_ acx → checkAssignability lvalue acx = .error (.spanErr nonLocalMessage)

/-- The targets that are treated by their declaration: one rooted in the subprogram is no
dereference, and one rooted outside has no name that a nested signature has brought in. -/
def TargetLocal (d : AstSubdecl) (start : Acx) (s : AstStmt) : Prop :=
  ∀ lvalue rvalue n, s = .assign lvalue rvalue → lvalue.root = some n →
    (n ∈ d.declared → lvalue.isDeref = false) ∧
    (n ∉ d.declared → stabResolveVar start.st n ≠ resolveFailure → n ∉ formalNames d.subprogs)

theorem addressedOffRbp_iff {n : Name} {acx : Acx} :
    AddressedOffRbp n acx ↔ stabHasLocalVar acx.st n = true ∧
      ∃ v, stabVar acx.st (stabResolveVar acx.st n) = some v := by
  constructor
  · intro addressed
    obtain ⟨v, found, address⟩ := addressed ⟨.rbx, 0, false⟩
    refine ⟨?_, v, found⟩
    by_contra outside
    simp only [pathAddress, get_bind_eq_ok, ofOption_bind_eq_ok] at address
    obtain ⟨w, -, address⟩ := address
    rw [if_pos (by simpa using outside), bind_eq_ok] at address
    obtain ⟨u, acx₁, code₁, code₂, captured, loaded, lines⟩ := address
    simp only [emit_bind_eq_ok, pure_eq_ok] at loaded
    obtain ⟨rest, -, rfl⟩ := loaded
    have quiet : code₁ = [] := by
      unfold capture at captured
      split at captured <;> cases captured <;> rfl
    subst quiet
    cases lines
  · rintro ⟨inside, v, found⟩ reg
    refine ⟨v, found, ?_⟩
    simp only [pathAddress, get_bind_eq_ok, ofOption_bind_eq_ok]
    refine ⟨v, found, ?_⟩
    rw [if_neg (by simp [inside])]
    exact emit_bind_eq_ok.mpr ⟨[], pure_eq_ok.mpr ⟨rfl, rfl, rfl⟩, rfl⟩

/-! ## The check of assignment targets -/

theorem checkRoot_local {n : Name} {acx : Acx} (inside : stabHasLocalVar acx.st n = true) :
    ∃ b, checkRoot n acx = .ok ((), acx.setAssigned b, []) := by
  simp only [checkRoot, get_bind_eq_ok, inside, Bool.true_eq_false, and_false, if_false]
  exact ⟨_, modify_eq_ok.mpr ⟨rfl, rfl⟩⟩

theorem checkRoot_nonlocal {n : Name} {acx : Acx} (type : acx.currentFuncType = .function)
    (outside : stabHasLocalVar acx.st n = false) :
    checkRoot n acx = .error (.spanErr nonLocalMessage) := by
  simp only [checkRoot, get_bind, type, outside, and_self, if_true]
  rfl

theorem checkTarget_local {e : AstExpr} {n : Name} {acx : Acx} (root : e.root = some n)
    (plain : e.isDeref = false) (inside : stabHasLocalVar acx.st n = true) :
    ∃ acx', checkTarget e acx = .ok ((), acx', []) := by
  cases e with
  | path p =>
    cases root
    obtain ⟨b, checked⟩ := checkRoot_local inside
    exact ⟨_, checked⟩
  | idx p index =>
    cases root
    obtain ⟨b, first⟩ := checkRoot_local inside
    have still : stabHasLocalVar (acx.setAssigned b).st p.first = true := inside
    obtain ⟨b', second⟩ := checkRoot_local still
    exact ⟨_, bind_eq_ok.mpr ⟨(), _, [], [], first, second, rfl⟩⟩
  | deref => cases plain
  | app => cases root
  | bin => cases root
  | lit => cases root
  | un => cases root
  | addrof => cases root

theorem checkTarget_nonlocal {n : Name} {acx : Acx} (type : acx.currentFuncType = .function)
    (outside : stabHasLocalVar acx.st n = false) : ∀ {e : AstExpr}, e.root = some n →
      checkTarget e acx = .error (.spanErr nonLocalMessage)
  | .path p, root => by
      cases root
      exact checkRoot_nonlocal type outside
  | .idx p index, root => by
      cases root
      exact bind_eq_error.mpr (.inl (checkRoot_nonlocal type outside))
  | .deref target, root =>
      bind_eq_error.mpr (.inl (checkTarget_nonlocal type outside root))

theorem checkTarget_not_rejected {n : Name} {acx : Acx} {m : String}
    (inside : stabHasLocalVar acx.st n = true) : ∀ {e : AstExpr}, e.root = some n →
      checkTarget e acx ≠ .error (.spanErr m)
  | .path p, root, rejected => by
      obtain ⟨acx', checked⟩ := checkTarget_local root rfl inside
      cases checked.symm.trans rejected
  | .idx p index, root, rejected => by
      obtain ⟨acx', checked⟩ := checkTarget_local root rfl inside
      cases checked.symm.trans rejected
  | .deref target, root, rejected => by
      rcases bind_eq_error.mp rejected with inner | ⟨_, _, _, _, last⟩
      · have same : target.root = some n := root
        exact checkTarget_not_rejected inside same inner
      · cases last

theorem checkTarget_deref {e : AstExpr} {acx acx' : Acx} {code : List Insn}
    (deref : e.isDeref = true) : checkTarget e acx ≠ .ok ((), acx', code) := by
  intro checked
  cases e with
  | deref target =>
    simp only [checkTarget] at checked
    rw [bind_eq_ok] at checked
    obtain ⟨_, _, _, _, _, last, _⟩ := checked
    simp at last
  | _ => cases deref

theorem checkAssignability_eq {acx : Acx} (sub : acx.toplevel = false) (e : AstExpr) :
    checkAssignability e acx = checkTarget e acx := by
  simp only [checkAssignability, get_bind, sub, Bool.false_eq_true, if_false]

/-! ## Locality at a statement -/

theorem Visits.toplevel {subprogs : List AstSubdecl} {acx start : Acx} {path : List Nat}
    {d : AstSubdecl} {before : List Insn} (visits : Visits subprogs acx path d start before) :
    start.toplevel = acx.toplevel := by
  induction visits with
  | here _ => rfl
  | inside _ opened _ ih => exact ih.trans (congrArg Prod.fst (openSubprog_adds opened).1)
  | later _ first _ ih => exact ih.trans (congrArg Prod.fst (analyzeSubprog_run _ first).owner)

theorem AstProgram.Visits.toplevel {prog : AstProgram} {path : List Nat} {d : AstSubdecl}
    {start : Acx} {before : List Insn} (visits : prog.Visits path d start before) :
    start.toplevel = false := by
  obtain ⟨off, acx, opening, lines, opened, there, -⟩ := visits
  rw [there.toplevel]
  simp only [openProgram, emit_bind_eq_ok, withStab_bind_eq_ok, withStab_eq_ok] at opened
  obtain ⟨_, ⟨_, st₁, -, _, st₂, -, st₃, -, rfl, -⟩, -⟩ := opened
  rfl

structure OwnStatement (d : AstSubdecl) (start inner : Acx) (loops : Nat) (s : AstStmt) (at_ : Acx) :
    Prop where
  sub : start.toplevel = false
  sound : start.st.Sound
  prepared : Prepared d start inner
  comes : Comes (.stmt d.body) inner loops s at_

namespace OwnStatement

variable {d : AstSubdecl} {start inner at_ : Acx} {loops : Nat} {s : AstStmt}

theorem owner (own : OwnStatement d start inner loops s at_) :
    at_.owner = (false, d.head.type, d.name) := by
  rw [own.comes.seen.owner, own.prepared.owner, own.sub]

theorem locals (own : OwnStatement d start inner loops s at_) (outside : loops = 0) (n : Name) :
    stabHasLocalVar at_.st n = true ↔ n ∈ d.declared ∨ n ∈ formalNames d.subprogs := by
  rw [← own.prepared.locals, stabHasLocalVar, stabHasLocalVar, (own.comes.seen.outside outside).innermost]

theorem nothing_local (own : OwnStatement d start inner loops s at_) (inside : loops ≠ 0) (n : Name) :
    stabHasLocalVar at_.st n = false := by
  simp [stabHasLocalVar, own.comes.seen.inside inside, stabScopeNew]

theorem addressed (own : OwnStatement d start inner loops s at_) (outside : loops = 0) {n : Name}
    (member : n ∈ d.declared) : AddressedOffRbp n at_ := by
  have inside := (own.locals outside n).mpr (.inl member)
  refine addressedOffRbp_iff.mpr ⟨inside, ?_⟩
  obtain ⟨slot, acx, opening, nested, opened, ran⟩ := own.prepared.analyzed
  have steps := openSubprog_steps own.sound opened
  have sound : inner.st.Sound :=
    StabSteps.sound ((analyzeSubprogs_run _ ran).steps (StabSteps.sound steps own.sound))
      (StabSteps.sound steps own.sound)
  have same := own.comes.seen.outside outside
  have bound := stabHasLocalVar_iff.mp inside
  rw [stabResolveVar_innermost bound]
  rw [same.innermost] at bound ⊢
  rcases sound.varNames inner.st.innermost List.mem_cons_self n with failed | ⟨v, found, -⟩
  · exact absurd failed bound
  · obtain ⟨low, high⟩ := arenaGet_lt found
    exact exists_arenaGet low (Int.lt_of_lt_of_le high (Int.ofNat_le.mpr same.vars))

theorem checked (own : OwnStatement d start inner loops s at_) {acx : Acx} (sees : Sees at_ acx)
    (lvalue : AstExpr) : checkAssignability lvalue acx = checkTarget lvalue acx :=
  checkAssignability_eq (congrArg Prod.fst (sees.owner.trans own.owner)) lvalue

theorem type (own : OwnStatement d start inner loops s at_) {acx : Acx} (sees : Sees at_ acx) :
    acx.currentFuncType = d.head.type :=
  congrArg (fun o => o.2.1) (sees.owner.trans own.owner)

theorem same_locals {acx : Acx} (sees : Sees at_ acx) (n : Name) :
    stabHasLocalVar acx.st n = stabHasLocalVar at_.st n := by
  rw [stabHasLocalVar, stabHasLocalVar, sees.scopes.innermost]

theorem kept_outside (own : OwnStatement d start inner loops s at_)
    (kept : LocalityKept d start at_ s) : loops = 0 := by
  by_contra inside
  have member : d.name ∈ d.declared := by simp [AstSubdecl.declared]
  have isLocal := (addressedOffRbp_iff.mp (kept.locals d.name member)).1
  rw [own.nothing_local inside] at isLocal
  cases isLocal

theorem kept_iff (own : OwnStatement d start inner loops s at_) :
    LocalityKept d start at_ s ↔
      loops = 0 ∧ (d.head.type = .function → TargetLocal d start s) := by
  have self : Sees at_ at_ := ⟨rfl, .refl _⟩
  constructor
  · intro kept
    have outside := own.kept_outside kept
    refine ⟨outside, fun function lvalue rvalue n isAssign root => ⟨?_, ?_⟩⟩
    · intro member
      obtain ⟨acx', accepted⟩ := kept.accepts function lvalue rvalue n isAssign root member at_ self
      rw [own.checked self] at accepted
      by_contra deref
      exact checkTarget_deref (by simpa using deref) accepted
    · intro notMember resolves nested
      have rejected := kept.rejects function lvalue rvalue n isAssign root notMember resolves at_ self
      rw [own.checked self] at rejected
      exact checkTarget_not_rejected ((own.locals outside n).mpr (.inr nested)) root rejected
  · rintro ⟨outside, target⟩
    refine ⟨fun n member => own.addressed outside member, ?_, ?_⟩
    · intro function lvalue rvalue n isAssign root member acx sees
      rw [own.checked sees]
      apply checkTarget_local root ((target function lvalue rvalue n isAssign root).1 member)
      rw [same_locals sees]
      exact (own.locals outside n).mpr (.inl member)
    · intro function lvalue rvalue n isAssign root notMember resolves acx sees
      rw [own.checked sees]
      refine checkTarget_nonlocal ((own.type sees).trans function) ?_ root
      rw [same_locals sees]
      have fresh := (target function lvalue rvalue n isAssign root).2 notMember resolves
      by_contra inside
      rcases (own.locals outside n).mp (by simpa using inside) with member | nested
      · exact notMember member
      · exact fresh nested

end OwnStatement

theorem AstProgram.Visits.own {prog : AstProgram} {path : List Nat} {d : AstSubdecl}
    {start inner at_ : Acx} {before : List Insn} {loops : Nat} {s : AstStmt}
    (visits : prog.Visits path d start before) (prepared : Prepared d start inner)
    (comes : Comes (.stmt d.body) inner loops s at_) : OwnStatement d start inner loops s at_ :=
  ⟨visits.toplevel, visits.sound, prepared, comes⟩

/-- At a statement of any subprogram's own body, locality is kept exactly outside of for loops, and
in a function there only for the targets that are treated by their declaration. -/
theorem localityKept_iff (prog : AstProgram) (path : List Nat) (d : AstSubdecl) (start inner at_ : Acx)
    (before : List Insn) (loops : Nat) (s : AstStmt) (visits : prog.Visits path d start before)
    (prepared : Prepared d start inner) (comes : Comes (.stmt d.body) inner loops s at_) :
    LocalityKept d start at_ s ↔ loops = 0 ∧ (d.head.type = .function → TargetLocal d start s) :=
  (visits.own prepared comes).kept_iff

-- procedure p; var i: integer; begin for i := 1 to 2 do begin end end
def loopDecl : AstSubdecl :=
  .mk ⟨.procedure, [], none⟩ "p" [⟨["i"], .integer⟩] [] [] (.foor "i" (.lit "1") (.lit "2") .null)

def loopProgram : AstProgram := ⟨[], [], [loopDecl], [], .null⟩

theorem loopProgram_comes : ∃ start inner at_ before, loopProgram.Visits [0] loopDecl start before ∧
    Prepared loopDecl start inner ∧ Comes (.stmt loopDecl.body) inner 1 .null at_ := by
  have accepted : (analyze loopProgram).toOption.isSome = true := by decide +kernel
  obtain ⟨⟨acx, code⟩, result⟩ := exists_ok_of_isSome accepted
  obtain ⟨start, before, inner, retslot, off, nested, own, after, visits, parts, -⟩ :=
    @analyze_visits loopProgram acx code result [0] loopDecl rfl
  obtain ⟨acx₁, opened, ran⟩ := parts.nested
  obtain ⟨acx₂, owned⟩ := parts.own
  obtain ⟨captured, bodyCode, slot, owned⟩ := ownCode_run owned
  have run : StmtRun (.stmt (.foor "i" (.lit "1") (.lit "2") .null)) inner acx₂ bodyCode := owned.run
  cases run with
  | foor first last _ _ path _ _ _ _ _ =>
    obtain ⟨_, same₁, first⟩ := first.accepted
    obtain ⟨_, same₂, last⟩ := last.accepted
    exact ⟨start, inner, _, before, visits, ⟨_, acx₁, _, nested, opened, ran⟩,
      .foor first last path.accepted .here⟩

theorem loopProgram_localityKept_iff : ∃ start inner at_,
    Comes (.stmt loopDecl.body) inner 1 .null at_ ∧ (LocalityKept loopDecl start at_ .null ↔
      1 = 0 ∧ (loopDecl.head.type = .function → TargetLocal loopDecl start .null)) := by
  obtain ⟨start, inner, at_, before, visits, prepared, comes⟩ := loopProgram_comes
  exact ⟨start, inner, at_, comes,
    localityKept_iff loopProgram [0] loopDecl start inner at_ before 1 .null visits prepared comes⟩

-- Locality is not kept at every statement.
theorem not_forall_localityKept : ¬ ∀ (prog : AstProgram) (path : List Nat) (d : AstSubdecl)
    (start inner at_ : Acx) (before : List Insn) (loops : Nat) (s : AstStmt),
    prog.Visits path d start before → Prepared d start inner →
      Comes (.stmt d.body) inner loops s at_ → LocalityKept d start at_ s := by
  intro claim
  obtain ⟨start, inner, at_, before, visits, prepared, comes⟩ := loopProgram_comes
  have kept := claim _ _ _ _ _ _ _ _ _ visits prepared comes
  exact Nat.one_ne_zero ((visits.own prepared comes).kept_outside kept)

end Dragon
